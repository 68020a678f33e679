import AfroLink.Executor.Lemmas.Stake

/-!
# The states of a chain

What holds from genesis on, between any two events: every record is guarded and every cell holds a value, bonds are
filed under their operators, money adds up, the native coin is frozen for nobody and the stake is backed.
-/

namespace AfroLink

variable [Crypto]

structure Store.Regular (s : Store) : Prop where
  guarded : s.Guarded
  whole : s.Whole
  filed : s.Filed
  balanced : ∀ d, (s.ledger d).Balanced
  unfrozen : ∀ a, s (.frozen .native a) = none
  backed : s.escrow.Backed

/-- Which addresses a hash keeps apart, the two module accounts among them. -/
structure ModulesApart : Prop extends AddressesApart where
  collector : Exec.feeCollectorAddress ≠ stakingAccount

variable {s s' : Store} {es : List StoreEvent} {ctx : BlockContext} {sender : Address} {m : Message}

theorem Emits.whole (hs : s.Whole) (h : Emits s es s') : s'.Whole := by
  cases h with
  | fee hpay =>
    exact ((Exec.bankTransfer_keeps (C := False) (F := ⊤) trivial trivial).run hpay).1.whole hs
  | message hm => exact (Exec.applyMessage_keeps.run hm).1.whole hs
  | nonce a => exact hs.set
  | pointer a p => exact hs.set

theorem Emits.balanced (hs : ∀ d, (s.ledger d).Balanced) (h : Emits s es s') (d : Denom) : (s'.ledger d).Balanced := by
  have hmove : LedgerMove (fun _ _ => True) s s' := by
    cases h with
    | fee hpay => exact (Exec.bankTransfer_move trivial).run hpay
    | message hm => exact (Exec.applyMessage_move hm).mono fun _ _ _ => trivial
    | nonce a => exact Exec.bumpNonce_move _ s a
    | pointer a p => exact (LedgerMove.set_right rfl).2 (.refl s)
  exact (hs d).move (hmove d)

theorem Message.frozen_of_mayWrite {d : Denom} {a : Address} (h : m.MayWrite sender (.frozen d a)) :
    ∃ frozen, m = .setFrozen d a frozen := by
  have hkind := kind_of_mayWrite h
  cases m with
  | setFrozen d' a' frozen =>
    cases h
    exact ⟨frozen, rfl⟩
  | _ => simp at hkind

theorem Exec.setFrozen_ne_native {d : Denom} {a : Address} {frozen : Bool}
    (h : Runs (applyMessage ctx sender (.setFrozen d a frozen)) s () s') : d ≠ .native := by
  have h := Runs.mapErr_iff.1 h
  cases frozen with
  | true =>
    obtain ⟨i, s₁, hissuer, -⟩ := Runs.bind_iff.1 h
    exact Bank.requireIssuer_ne_native hissuer
  | false =>
    obtain ⟨i, s₁, hissuer, -⟩ := Runs.bind_iff.1 h
    exact Bank.requireIssuer_ne_native hissuer

theorem Emits.unfrozen (hs : ∀ a, s (.frozen .native a) = none) (h : Emits s es s') (a : Address) :
    s' (.frozen .native a) = none := by
  rcases h.quiet_or_message with hes | ⟨ctx, sender, m, rfl, hm⟩
  · have hsame : s' (.frozen .native a) = s (.frozen .native a) := h.frame hes nofun nofun
    exact hsame.trans (hs a)
  · refine ((Exec.applyMessage_keeps.run hm).1.frame _ fun hmay => ?_).trans (hs a)
    obtain ⟨frozen, rfl⟩ := Message.frozen_of_mayWrite hmay
    exact Exec.setFrozen_ne_native hm rfl

theorem Acts.regular (happart : ModulesApart) (hs : s.Regular) (h : Acts s es s') : s'.Regular :=
  ⟨h.guarded happart.keyGroup hs.guarded, h.1.whole hs.whole, h.1.filed hs.filed, h.1.balanced hs.balanced,
    h.1.unfrozen hs.unfrozen,
    hs.backed.move (h.escrow happart.toAddressesApart happart.collector hs.guarded hs.filed)⟩

/-! ## Runs -/

section

variable [StateRoot] {g : Genesis} {limits : GenesisLimits} {b : Block}

theorem Genesis.apply_books (h : Runs (g.apply limits) .empty b s) :
    (∀ a, s.bondAt a = none) ∧ ∀ a, s.queueAt a = [] := by
  have hbooks : ∀ k : StoreKey, k.isStake = true → s k = Store.empty k := fun k hk =>
    install_frame (install_of_apply h) (by cases k <;> first | exact id | cases hk) (by rintro a rfl; cases hk)
  obtain ⟨hbonds, hqueues, -⟩ := Store.books_of_frame hbooks
  exact ⟨fun a => congrFun hbonds a, fun a => congrFun hqueues a⟩

theorem Genesis.apply_debt (h : Runs (g.apply limits) .empty b s) : s.escrow.debt = 0 := by
  obtain ⟨hnone, hempty⟩ := apply_books h
  simp [Escrow.debt, Store.escrow, Store.stakeOf, hnone, hempty]

theorem Genesis.apply_regular (h : Runs (g.apply limits) .empty b s) : s.Regular := by
  have hinstall := install_of_apply h
  obtain ⟨hnone, -⟩ := apply_books h
  refine ⟨apply_guarded h, install_whole hinstall, ⟨?_, ?_⟩, install_balanced hinstall, ?_, ?_⟩
  · intro a b hb
    cases (hnone a).symm.trans hb
  · intro a b hb
    cases (hnone a).symm.trans hb
  · exact fun a => install_frame hinstall id nofun
  · rw [Escrow.Backed, apply_debt h]
    exact Nat.zero_le _

end

/-- `s` occurs in a run of blocks from `start`, between two of its events. -/
def Occurs [StateRoot] (e : Executor) (start s : Store) : Prop :=
  ∃ blocks es, es <+: runEvents e blocks start ∧ Trace Emits start es s

theorem executeBlocks_occurs [StateRoot] (e : Executor) (blocks : List (BlockContext × List Transaction)) (start : Store) :
    Occurs e start (executeBlocks e blocks start) :=
  ⟨blocks, _, List.prefix_rfl, executeBlocks_trace e blocks start⟩

variable {b : Block} {limits : GenesisLimits} {g : Genesis} {start : Store} {e : Executor}

theorem Occurs.unfrozen [StateRoot]
    (h : Occurs e start s) (hgenesis : Runs (g.apply limits) .empty b start) (a : Address) :
    s (.frozen .native a) = none := by
  obtain ⟨blocks, es, -, htrace⟩ := h
  exact htrace.preserves (I := fun s => ∀ a, s (.frozen .native a) = none) (fun _ _ _ hs hstep => hstep.unfrozen hs)
    (Genesis.apply_regular hgenesis).unfrozen a

theorem executeTx_occurs [StateRoot] (e : Executor) (ctx : BlockContext) (t : Transaction) (start : Store) :
    Occurs e start (Exec.executeTx e ctx t start).1 :=
  executeBlocks_occurs e [(ctx, [t])] start

theorem Occurs.acts [StateRoot] (h : Occurs e start s) (happart : GroupAddressesApart)
    (hs : start.Guarded) (hk : start.Keyed) : ∃ es, Trace Acts start es s := by
  obtain ⟨blocks, es, hes, htrace⟩ := h
  exact ⟨es, htrace.restrict fun ev hev => runEvents_owned happart hs hk ev (hes.subset hev)⟩

theorem Occurs.regular [StateRoot]
    (h : Occurs e start s) (happart : ModulesApart) (hgenesis : Runs (g.apply limits) .empty b start) : s.Regular := by
  obtain ⟨es, htrace⟩ := h.acts happart.keyGroup (Genesis.apply_guarded hgenesis) (Genesis.apply_keyed hgenesis)
  exact htrace.preserves (fun _ _ _ hs hstep => hstep.regular happart hs) (Genesis.apply_regular hgenesis)

/-- `s` occurs in a run from `start` all of whose events meet a condition in the state they happen in. -/
def OccursWhere [StateRoot] (P : Store → StoreEvent → Prop) (e : Executor) (start s : Store) : Prop :=
  ∃ blocks es, es <+: runEvents e blocks start ∧
    Trace (fun s es s' => Emits s es s' ∧ ∀ ev ∈ es, P s ev) start es s

theorem Occurs.always [StateRoot] (h : Occurs e start s) : OccursWhere (fun _ _ => True) e start s := by
  obtain ⟨blocks, es, hes, htrace⟩ := h
  exact ⟨blocks, es, hes, htrace.mono fun hm => ⟨hm, fun _ _ => trivial⟩⟩

/-- What such events keep, next to regularity, holds in every state of such a run from genesis. -/
theorem OccursWhere.invariant [StateRoot] {P : Store → StoreEvent → Prop} {I : Store → Prop}
     (h : OccursWhere P e start s) (happart : ModulesApart)
    (hgenesis : Runs (g.apply limits) .empty b start)
    (hstep : ∀ s es s', s.Regular → I s → Acts s es s' → (∀ ev ∈ es, P s ev) → I s') (h₀ : I start) : I s := by
  obtain ⟨blocks, es, hes, htrace⟩ := h
  have howned : ∀ ev ∈ es, ev.Owned := fun ev hev =>
    runEvents_owned happart.keyGroup (Genesis.apply_guarded hgenesis) (Genesis.apply_keyed hgenesis) ev (hes.subset hev)
  refine ((htrace.restrict howned).preserves (I := fun s => s.Regular ∧ I s) ?_ ⟨Genesis.apply_regular hgenesis, h₀⟩).2
  rintro s as t ⟨hs, hI⟩ ⟨⟨hemits, hP⟩, howned⟩
  have hacts : Acts s as t := ⟨hemits, howned⟩
  exact ⟨hacts.regular happart hs, hstep s as t hs hI hacts hP⟩

end AfroLink
