import AfroLink.Executor.Genesis
import AfroLink.Executor.Lemmas.Authority
import AfroLink.Executor.Lemmas.Events

/-!
# The store of a genesis file

Every record of it can be read back, and every account in it is a fresh individual's.
-/

namespace AfroLink

instance : StateFault GenesisError where
  isFault
    | .bank e => isFault e
    | .governance e => isFault e
    | _ => false

namespace Genesis

variable {s s' : Store} {C : Prop}

/-- The cells a genesis file fills before it opens accounts. -/
def Opening : StoreKey → Prop
  | .issuer _ | .balance .. | .supply _ | .params | .council | .attestor _ => True
  | _ => False

variable {issuers : List (Denom × Issuer)} {allocations : List Allocation} {attestors : List (Address × Attestor)}

theorem registerIssuers_keeps (h : ∀ p ∈ issuers, p.2.decodeError = none) :
    Keeps Opening C ⊤ (registerIssuers issuers) s := by
  induction issuers generalizing s with
  | nil => exact .pure trivial
  | cons p rest ih =>
    refine .bind (P := ⊤) (.mapErr (fun _ => rfl) ?_) fun _ _ _ _ => ih fun q hq => h q (.tail _ hq)
    refine (Bank.registerIssuer_keeps (Issuer.decodeError_eq_none.1 (h p (.head _)))).mono ?_ fun _ => id
    rintro k rfl
    trivial

theorem allocateAll_keeps : Keeps Opening C ⊤ (allocateAll allocations) s := by
  induction allocations generalizing s with
  | nil => exact .pure trivial
  | cons a rest ih =>
    refine .bind (P := ⊤) (.mapErr (fun _ => rfl) ?_) fun _ _ _ _ => ih
    unfold Bank.genesisAllocate
    exact .guard rfl fun _ => .read Bank.totalSupply_keeps fun _ _ => .read (.result fun _ _ => rfl) fun _ _ =>
      .read Bank.balance_keeps fun _ _ => .read (.result fun _ _ => rfl) fun _ _ =>
      .bind (Bank.writeBalance_keeps trivial) fun _ _ _ _ => Bank.writeSupply_keeps trivial

theorem governanceInstall_keeps {c : Council} {p : ChainParams} : Keeps Opening C ⊤ (Governance.install c p) s :=
  .read (.result fun _ _ => rfl) fun _ _ => .read (.result fun _ _ => rfl) fun _ _ =>
    .bind (.set trivial fun _ _ => rfl) fun _ _ _ _ => .set trivial fun _ _ => rfl

theorem registerAttestors_keeps
    (h : ∀ p ∈ attestors, p.2.decodeError = none) : Keeps Opening C ⊤ (registerAttestors attestors) s := by
  induction attestors generalizing s with
  | nil => exact .pure trivial
  | cons p rest ih =>
    exact .bind (.set trivial fun _ _ => h p (.head _)) fun _ _ _ _ => ih fun q hq => h q (.tail _ hq)

theorem openAccounts_keeps {l : List Address} : Keeps (fun k => ∃ a, k = .account a) C ⊤ (openAccounts l) s := by
  induction l generalizing s with
  | nil => exact .pure trivial
  | cons a rest ih => exact .bind (.set ⟨a, rfl⟩ fun _ _ => Account.individual_sound a) fun _ _ _ _ => ih

theorem openAccounts_fresh {l : List Address} (hs : ∀ a, s.record a = Account.individual a)
    (h : Runs (openAccounts l) s () s') (a : Address) : s'.record a = Account.individual a := by
  induction l generalizing s with
  | nil =>
    obtain ⟨-, rfl⟩ := Runs.pure_iff.1 h
    exact hs a
  | cons b rest ih =>
    have hrest := runs_setEncoded_bind.1 h
    refine ih (fun c => ?_) hrest
    by_cases hc : c = b
    · subst hc
      exact Store.record_set
    · rw [Store.record_set_of_ne hc]
      exact hs c

variable {g : Genesis} {limits : GenesisLimits}

theorem install_cases (h : Runs (g.install limits) s () s') :
    ∃ s₁, Writes Opening True s s₁ ∧ Runs (openAccounts (sortDedup (g.allocations.map (·.address)))) s₁ () s' := by
  obtain ⟨u, -, h⟩ := Runs.lift h
  obtain ⟨u₁, s₁, h₁, h⟩ := Runs.bind_iff.1 h
  obtain ⟨u₂, s₂, h₂, h⟩ := Runs.bind_iff.1 h
  obtain ⟨u₃, s₃, h₃, h⟩ := Runs.bind_iff.1 h
  obtain ⟨u₄, s₄, h₄, h⟩ := Runs.bind_iff.1 h
  refine ⟨s₄, ?_, h⟩
  have w₁ := ((registerIssuers_keeps (C := True) g.issuers_decode).run h₁).1
  have w₂ := ((allocateAll_keeps (C := True)).run h₂).1
  have w₃ := ((governanceInstall_keeps (C := True)).run (Runs.mapErr_iff.1 h₃)).1
  have w₄ := ((registerAttestors_keeps (C := True) g.attestors_decode).run h₄).1
  exact ((w₁.trans w₂).trans w₃).trans w₄

theorem install_records (h : Runs (g.install limits) .empty () s') (a : Address) :
    s'.record a = Account.individual a := by
  obtain ⟨s₁, hw, hopen⟩ := install_cases h
  exact openAccounts_fresh (fun b => Store.record_congr (hw.frame _ id)) hopen a

theorem install_frame (h : Runs (g.install limits) s () s') {k : StoreKey} (hk : ¬ Opening k) (ha : ∀ a, k ≠ .account a) :
    s' k = s k := by
  obtain ⟨s₁, hw, hopen⟩ := install_cases h
  have hopened := ((openAccounts_keeps (C := True)).run hopen).1.frame k fun ⟨a, h⟩ => ha a h
  exact hopened.trans (hw.frame k hk)

theorem install_whole (h : Runs (g.install limits) .empty () s') : s'.Whole := by
  obtain ⟨s₁, hw, hopen⟩ := install_cases h
  exact ((openAccounts_keeps (C := True)).run hopen).1.whole (hw.whole Store.empty_whole)

/-! ## Opening balances -/

theorem allocateAll_move : Preserves (LedgerMove fun _ _ => True) (allocateAll allocations) := by
  induction allocations with
  | nil =>
    intro s
    simp [allocateAll]
  | cons a rest ih =>
    refine .bind (.mapErr fun s => ?_) fun _ => ih
    simp [Bank.genesisAllocate, Bank.totalSupply, Bank.balance]
    intro _ w hw z hz v hv y hy
    exact Bank.issue_move hv hw hy hz

theorem registerIssuers_move : Preserves (LedgerMove fun _ _ => True) (registerIssuers issuers) := by
  induction issuers with
  | nil =>
    intro s
    simp [registerIssuers]
  | cons p rest ih =>
    refine .bind (.mapErr fun s => ?_) fun _ => ih
    simp [Bank.registerIssuer, Bank.writeIssuer]

theorem registerAttestors_move : Preserves (LedgerMove fun _ _ => True) (registerAttestors attestors) := by
  induction attestors with
  | nil =>
    intro s
    simp [registerAttestors]
  | cons p rest ih =>
    refine .bind (fun s => ?_) fun _ => ih
    simp

theorem install_move : Preserves (LedgerMove fun _ _ => True) (g.install limits) := by
  refine .bind (fun s => wp.liftResult_iff.2 ⟨fun _ _ => .refl s, fun _ _ => trivial⟩) fun _ =>
    .bind registerIssuers_move fun _ => .bind allocateAll_move fun _ => .bind (.mapErr fun s => ?_) fun _ =>
    .bind registerAttestors_move fun _ => Keeps.move (fun _ => openAccounts_keeps) ?_
  · simp [Governance.install]
  · rintro k ⟨a, rfl⟩
    rfl

theorem empty_balanced (d : Denom) : (Store.empty.ledger d).Balanced := by
  simp [Ledger.Balanced, Ledger.held, Store.ledger, Store.empty, Cell.amount]

theorem install_balanced (h : Runs (g.install limits) .empty () s') (d : Denom) : (s'.ledger d).Balanced :=
  (empty_balanced d).move (install_move.run h d)

variable [Crypto] [StateRoot] {b : Block}

theorem install_of_apply (h : Runs (g.apply limits) s b s') : Runs (g.install limits) s () s' := by
  obtain ⟨u, s₁, hinstall, h⟩ := Runs.bind_iff.1 h
  obtain ⟨t, s₂, hget, h⟩ := Runs.bind_iff.1 h
  obtain ⟨rfl, rfl⟩ := Runs.get_iff.1 hget
  obtain ⟨-, rfl⟩ := Runs.pure_iff.1 h
  exact hinstall

theorem apply_of_install (h : Runs (g.install limits) s () s') : ∃ b, Runs (g.apply limits) s b s' :=
  ⟨_, Runs.bind_iff.2 ⟨(), s', h, rfl⟩⟩

theorem apply_guarded (h : Runs (g.apply limits) .empty b s') : s'.Guarded := by
  intro a
  rw [install_records (install_of_apply h) a]
  exact .individual a

end Genesis

/-! ## Runs -/

section

variable [Crypto] [StateRoot] {e : Executor} {s : Store}

variable {blocks : List (BlockContext × List Transaction)}

theorem executeBlocks_guarded (happart : GroupAddressesApart)
    (hs : s.Guarded) : (executeBlocks e blocks s).Guarded := by
  induction blocks generalizing s with
  | nil => exact hs
  | cons block rest ih => exact ih (Exec.executeTxs_guarded happart hs)

theorem executeBlocks_nonce_le (happart : GroupAddressesApart)
    (hs : s.Guarded) (a : Address) : (s.record a).nonce ≤ ((executeBlocks e blocks s).record a).nonce := by
  induction blocks generalizing s with
  | nil => exact le_refl _
  | cons block rest ih =>
    exact le_trans (Exec.executeTxs_nonce_le happart hs a) (ih (Exec.executeTxs_guarded happart hs))

end

end AfroLink
