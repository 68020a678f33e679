import AfroLink.Base.Escrow
import AfroLink.Executor.Lemmas.Actors
import AfroLink.Executor.Lemmas.Payouts
import AfroLink.Staking.Lemmas.Books

/-!
# What a message does to the stake

Five messages work on the books of the staking module and no other message touches them.
-/

namespace AfroLink

/-! ## Parameters in force -/

/-- The parameters the store holds, the default ones where it holds none. -/
def Store.chainParams (s : Store) : ChainParams :=
  match s.getDecoded .params with
  | .ok (some p) => p
  | _ => {}

theorem Exec.paramsOf_chainParams {C : Prop} {s : Store} : Keeps ⊥ C (fun p => p = s.chainParams) Exec.paramsOf s := by
  refine .mapErr (fun _ => rfl) (.read .get fun v hv => .pure ?_)
  unfold Store.chainParams
  rw [hv]
  cases v <;> rfl

theorem Exec.runs_staking {α : Type} {op : StakingParams → Staking.M α} {s s' : Store} {a : α}
    (h : Runs (staking op) s a s') : Runs (op s.chainParams.staking) s a s' := by
  obtain ⟨p, rfl, h⟩ := paramsOf_chainParams.run_read h
  exact Runs.mapErr_iff.1 h

/-! ## Views of the books -/

namespace Store

variable {s s' : Store}

theorem books_of_frame (h : ∀ k : StoreKey, k.isStake = true → s' k = s k) :
    s'.bondAt = s.bondAt ∧ s'.queueAt = s.queueAt ∧ s' .bondIndex = s .bondIndex :=
  ⟨funext fun _ => bondAt_congr (h _ rfl), funext fun _ => queueAt_congr (h _ rfl), h _ rfl⟩

/-- Every bond is filed under its operator, and the operator is in the index. -/
structure Filed (s : Store) : Prop where
  operator : ∀ a b, s.bondAt a = some b → b.operator = a
  indexed : ∀ a b, s.bondAt a = some b → ∃ index, s .bondIndex = some (.value index) ∧ a ∈ index

/-- What the module owes an operator: what is bonded and what waits in the queue. -/
def stakeOf (s : Store) (operator : Address) : ℕ :=
  (s.bondAt operator).elim 0 (·.bonded.val) + queued (s.queueAt operator)

def escrow [Crypto] (s : Store) : Escrow Address := ⟨s.stakeOf, (s.ledger .native).balance stakingAccount⟩

end Store

/-- The message works on the books of the staking module. -/
def Message.staked : Message → Bool
  | .bond .. | .addStake _ | .unbond _ | .withdrawUnbonded | .reportEquivocation _ => true
  | _ => false

section

variable [Crypto]

/-- A payment in native coin, and no other change to its ledger. -/
def PaysNative (src dst : Address) (x : Amount) (s s' : Store) : Prop :=
  ∃ t t', t.ledger .native = s.ledger .native ∧ Bank.Paid src dst .native x t t' ∧
    s'.ledger .native = t'.ledger .native

omit [Crypto] in
theorem PaysNative.credit {src dst : Address} {x : Amount} {s s' : Store} (h : PaysNative src dst x s s')
    (hne : src ≠ dst) : (s'.ledger .native).balance dst = (s.ledger .native).balance dst + x.val := by
  obtain ⟨t, t', ht, hpaid, ht'⟩ := h
  rw [ht', ← ht]
  cases hpaid with
  | self h => exact absurd h hne
  | moved y z _ hy hz => simpa [Store.ledger_withBalance] using hz

omit [Crypto] in
theorem PaysNative.debit {src dst : Address} {x : Amount} {s s' : Store} (h : PaysNative src dst x s s')
    (hne : src ≠ dst) : (s'.ledger .native).balance src + x.val = (s.ledger .native).balance src := by
  obtain ⟨t, t', ht, hpaid, ht'⟩ := h
  rw [ht', ← ht]
  cases hpaid with
  | self h => exact absurd h hne
  | moved y z _ hy hz => simpa [Store.ledger_withBalance, hne] using hy

/-- What a message of `sender` does to bonds, queues, index and coin. -/
inductive StakeStep (ctx : BlockContext) (sender : Address) (s s' : Store) : Message → Prop where
  | bond {pk : PublicKey} {country : CountryCode} {x : Amount} {v : Option (List Address)} (hnone : s.bondAt sender = none)
      (hmin : s.chainParams.staking.minBond ≤ x)
      (hbonds : s'.bondAt = Function.update s.bondAt sender (some (Bond.new sender pk country x)))
      (hqueues : s'.queueAt = s.queueAt) (hread : s.getDecoded .bondIndex = .ok v)
      (hindex : s' .bondIndex = some (.value ((v.getD [] ++ [sender]).insertionSort (· ≤ ·))))
      (hpaid : PaysNative sender stakingAccount x s s') : StakeStep ctx sender s s' (.bond pk country x)
  | addStake {x bonded : Amount} {b : Bond} (hb : s.bondAt sender = some b) (hadd : bonded.val = b.bonded.val + x.val)
      (hbonds : s'.bondAt = Function.update s.bondAt sender (some { b with bonded })) (hqueues : s'.queueAt = s.queueAt)
      (hindex : s' .bondIndex = s .bondIndex) (hpaid : PaysNative sender stakingAccount x s s') :
      StakeStep ctx sender s s' (.addStake x)
  | unbond {x bonded : Amount} {b : Bond} (hb : s.bondAt sender = some b) (hle : x.val ≤ b.bonded.val)
      (hsub : bonded.val = b.bonded.val - x.val)
      (hbonds : s'.bondAt = Function.update s.bondAt sender (some { b with bonded }))
      (hqueues : s'.queueAt = Function.update s.queueAt sender (s.queueAt sender ++
        [⟨x, ctx.height, Fin.saturatingAdd ctx.time s.chainParams.staking.unbondingMs⟩]))
      (hindex : s' .bondIndex = s .bondIndex) (hledger : s'.ledger .native = s.ledger .native) :
      StakeStep ctx sender s s' (.unbond x)
  | withdraw {total : Amount} (htotal : total.val = queued ((s.queueAt sender).filter fun e => e.matured ctx.time))
      (hbonds : s'.bondAt = s.bondAt)
      (hqueues : s'.queueAt = Function.update s.queueAt sender ((s.queueAt sender).filter fun e => !e.matured ctx.time))
      (hindex : s' .bondIndex = s .bondIndex)
      (hpaid : total.val = 0 ∧ s'.ledger .native = s.ledger .native ∨ PaysNative stakingAccount sender total s s') :
      StakeStep ctx sender s s' .withdrawUnbonded
  | slash {evidence : Equivocation} {set : ValidatorSet} {b : Bond} {v : Option (List Unbonding)} {total : Amount}
      (hset : Runs (Staking.currentSet s.chainParams.staking) s set s) (hproof : provesEquivocation evidence set = true)
      (hb : s.bondAt evidence.validator = some b) (hjailed : b.jailed = false)
      (hread : s.getDecoded (.unbonding evidence.validator) = .ok v)
      (htotal : total.val = Staking.slashTotal s evidence.validator b evidence.first.vote.height)
      (hbonds : s'.bondAt = Function.update s.bondAt evidence.validator
        (some { b with bonded := Staking.cut b.bonded, jailed := true, jailedAt := some ctx.height }))
      (hqueues : s'.queueAt = Function.update s.queueAt evidence.validator
        ((s.queueAt evidence.validator).map (Staking.slashEntry evidence.first.vote.height)))
      (hindex : s' .bondIndex = s .bondIndex)
      (hbalance : (s'.ledger .native).balance stakingAccount + total.val = (s.ledger .native).balance stakingAccount)
      (hsupply : (s'.ledger .native).supply + total.val = (s.ledger .native).supply) :
      StakeStep ctx sender s s' (.reportEquivocation evidence)
  | other {m : Message} (hm : m.staked = false) (hframe : ∀ k : StoreKey, k.isStake = true → s' k = s k) :
      StakeStep ctx sender s s' m

theorem Message.not_stake_of_mayWrite {m : Message} {sender : Address} {k : StoreKey} (hm : m.staked = false)
    (h : m.MayWrite sender k) : k.isStake = false := by
  rw [Bool.eq_false_iff, ne_eq, StoreKey.isStake_iff]
  intro hk
  have hkind := kind_of_mayWrite h
  rw [hk] at hkind
  cases m with
  | bond | addStake | unbond | withdrawUnbonded | reportEquivocation => cases hm
  | _ => simp at hkind

namespace Exec

variable {ctx : BlockContext} {sender : Address} {s s' : Store} {m : Message}

omit [Crypto] in
theorem Paid.books {src dst : Address} {x : Amount} {s₁ : Store} (h : Bank.Paid src dst .native x s s₁) :
    s₁.bondAt = s.bondAt ∧ s₁.queueAt = s.queueAt ∧ s₁ .bondIndex = s .bondIndex := by
  refine Store.books_of_frame fun k hk => h.frame ?_
  cases k <;> first | rfl | cases hk

theorem bond_step {pk : PublicKey} {country : CountryCode} {x : Amount}
    (h : Runs (applyMessage ctx sender (.bond pk country x)) s () s') : StakeStep ctx sender s s' (.bond pk country x) := by
  have h : Runs (staking fun p => Staking.bond p sender pk country x) s () s' := h
  obtain ⟨v, s₁, hnone, hread, hmin, hpaid, rfl⟩ := wp.iff_runs.1 Staking.wp_bond () s' (runs_staking h)
  obtain ⟨hbonds, hqueues, -⟩ := Paid.books hpaid
  refine .bond hnone hmin ?_ ?_ hread Store.set_self ⟨s, s₁, rfl, hpaid, ?_⟩
  · rw [Store.bondAt_set_of_ne (k := .bondIndex) nofun, Store.bondAt_set, hbonds]
  · rw [Store.queueAt_set_of_ne (k := .bondIndex) nofun, Store.queueAt_set_of_ne (k := .bond sender) nofun, hqueues]
  · refine Store.ledger_congr (fun k hk => ?_) .native
    rw [Store.set_of_ne (by rintro rfl; cases hk), Store.set_of_ne (by rintro rfl; cases hk)]

theorem addStake_step {x : Amount} (hs : s.Filed) (h : Runs (applyMessage ctx sender (.addStake x)) s () s') :
    StakeStep ctx sender s s' (.addStake x) := by
  have h : Runs (staking fun _ => Staking.addStake sender x) s () s' := h
  obtain ⟨b, s₁, bonded, hb, hpaid, hadd, rfl⟩ := wp.iff_runs.1 Staking.wp_addStake () s' (runs_staking h)
  obtain ⟨hbonds, hqueues, hindex⟩ := Paid.books hpaid
  rw [hs.operator sender b hb]
  refine .addStake hb hadd ?_ ?_ ?_ ⟨s, s₁, rfl, hpaid, ?_⟩
  · rw [Store.bondAt_set, hbonds, hs.operator sender b hb]
  · rw [Store.queueAt_set_of_ne (k := .bond sender) nofun, hqueues]
  · rw [Store.index_set_bond, hindex]
  · exact Store.ledger_congr (fun k hk => Store.set_of_ne (by rintro rfl; cases hk)) .native

theorem unbond_step {x : Amount} (hs : s.Filed) (h : Runs (applyMessage ctx sender (.unbond x)) s () s') :
    StakeStep ctx sender s s' (.unbond x) := by
  have h : Runs (staking fun p => Staking.unbond p sender x ctx.height ctx.time) s () s' := h
  obtain ⟨b, bonded, hb, hle, hsub, rfl⟩ := wp.iff_runs.1 Staking.wp_unbond () s' (runs_staking h)
  rw [hs.operator sender b hb]
  refine .unbond hb hle hsub ?_ ?_ ?_ ?_
  · rw [Store.bondAt_withQueue, Store.bondAt_set, hs.operator sender b hb]
  · rw [Store.queueAt_withQueue, Store.queueAt_set_of_ne (k := .bond sender) nofun]
  · rw [Store.index_withQueue, Store.index_set_bond]
  · refine Store.ledger_congr (fun k hk => ?_) .native
    rw [Store.withQueue_apply (by rintro rfl; cases hk), Store.set_of_ne (by rintro rfl; cases hk)]

theorem withdraw_step (h : Runs (applyMessage ctx sender .withdrawUnbonded) s () s') :
    StakeStep ctx sender s s' .withdrawUnbonded := by
  obtain ⟨total, s₁, hrun, hret⟩ := Runs.bind_iff.1 h
  obtain ⟨-, rfl⟩ := Runs.pure_iff.1 hret
  obtain ⟨htotal, hrest⟩ := wp.iff_runs.1 Staking.wp_withdraw total s₁ (runs_staking hrun)
  -- first the queue, then the payment
  generalize hq : (s.queueAt sender).filter (fun e => !e.matured ctx.time) = queue at hrest
  have hledger : (s.withQueue sender queue).ledger .native = s.ledger .native :=
    Store.ledger_congr (fun k hk => Store.withQueue_apply (by rintro rfl; cases hk)) .native
  have hindex : s.withQueue sender queue .bondIndex = s .bondIndex := Store.index_withQueue
  subst hq
  rcases hrest with ⟨hzero, rfl⟩ | hpaid
  · exact .withdraw htotal Store.bondAt_withQueue Store.queueAt_withQueue hindex
      (.inl ⟨by simpa [Amount.isZero] using hzero, hledger⟩)
  · obtain ⟨hbonds', hqueues', hindex'⟩ := Paid.books hpaid
    exact .withdraw htotal (hbonds'.trans Store.bondAt_withQueue) (hqueues'.trans Store.queueAt_withQueue)
      (hindex'.trans hindex) (.inr ⟨_, _, hledger, hpaid, rfl⟩)

theorem slash_step {evidence : Equivocation} (hs : s.Filed)
    (h : Runs (applyMessage ctx sender (.reportEquivocation evidence)) s () s') :
    StakeStep ctx sender s s' (.reportEquivocation evidence) := by
  obtain ⟨set, s₁, hcurrent, hrest⟩ := Runs.bind_iff.1 h
  obtain ⟨total, s₂, hslash, hret⟩ := Runs.bind_iff.1 hrest
  obtain ⟨-, rfl⟩ := Runs.pure_iff.1 hret
  have hset := runs_staking hcurrent
  obtain rfl := (Staking.currentSet_keeps (C := False).run hset).1.eq_of_bot
  have hrun := runs_staking hslash
  unfold Staking.slashEquivocation at hrun
  obtain ⟨hproof, hrun⟩ := Runs.guard_iff.1 hrun
  obtain ⟨b, v, hb, hjailed, hread, htotal, hdestroyed⟩ := wp.iff_runs.1 Staking.wp_slash total s₂ hrun
  have hbooks : s₂.bondAt = (Staking.slashBooks s₁ evidence.validator b evidence.first.vote.height ctx.height).bondAt ∧
      s₂.queueAt = (Staking.slashBooks s₁ evidence.validator b evidence.first.vote.height ctx.height).queueAt ∧
      s₂ .bondIndex = Staking.slashBooks s₁ evidence.validator b evidence.first.vote.height ctx.height .bondIndex := by
    refine Store.books_of_frame fun k hk => hdestroyed.frame ?_
    cases k <;> first | rfl | cases hk
  have hbalance := hdestroyed.balance
  have hsupply := hdestroyed.supply
  rw [Staking.ledger_slashBooks] at hbalance hsupply
  unfold Staking.slashBooks at hbooks
  rw [hs.operator evidence.validator b hb] at hbooks
  refine .slash hset (by simpa using hproof) hb hjailed hread htotal ?_ ?_ ?_ hbalance hsupply
  · rw [hbooks.1, Store.bondAt_withQueue, Store.bondAt_set, hs.operator evidence.validator b hb]
  · rw [hbooks.2.1, Store.queueAt_withQueue, Store.queueAt_set_of_ne (k := .bond evidence.validator) nofun]
  · rw [hbooks.2.2, Store.index_withQueue, Store.index_set_bond]

theorem applyMessage_stake (hs : s.Filed) (h : Runs (applyMessage ctx sender m) s () s') :
    StakeStep ctx sender s s' m := by
  have hother (hm : m.staked = false) : StakeStep ctx sender s s' m := by
    refine .other hm fun k hk => (applyMessage_keeps.run h).1.frame k fun hmay => ?_
    simp [Message.not_stake_of_mayWrite hm hmay] at hk
  cases m with
  | bond pk country x => exact bond_step h
  | addStake x => exact addStake_step hs h
  | unbond x => exact unbond_step hs h
  | withdrawUnbonded => exact withdraw_step h
  | reportEquivocation evidence => exact slash_step hs h
  | _ => exact hother rfl

end Exec

/-! ## Bonds stay filed -/

variable {ctx : BlockContext} {sender : Address} {s s' : Store} {m : Message} {es : List StoreEvent}

omit [Crypto] in
theorem Store.Filed.congr (hs : s.Filed) (hbonds : s'.bondAt = s.bondAt) (hindex : s' .bondIndex = s .bondIndex) :
    s'.Filed :=
  ⟨fun a b hb => hs.operator a b (hbonds ▸ hb), fun a b hb => hindex ▸ hs.indexed a b (hbonds ▸ hb)⟩

omit [Crypto] in
theorem Store.Filed.update {a : Address} {b b' : Bond} (hs : s.Filed) (hb : s.bondAt a = some b)
    (hbonds : s'.bondAt = Function.update s.bondAt a (some b')) (hoperator : b'.operator = b.operator)
    (hindex : s' .bondIndex = s .bondIndex) : s'.Filed := by
  have hcases : ∀ x c, s'.bondAt x = some c → (x = a ∧ c = b') ∨ s.bondAt x = some c := by
    intro x c hc
    rw [hbonds] at hc
    by_cases hx : x = a
    · subst hx
      rw [Function.update_self] at hc
      exact .inl ⟨rfl, (Option.some.inj hc).symm⟩
    · rw [Function.update_of_ne hx] at hc
      exact .inr hc
  refine ⟨fun x c hc => ?_, fun x c hc => ?_⟩
  · rcases hcases x c hc with ⟨rfl, rfl⟩ | hc
    · exact hoperator.trans (hs.operator x b hb)
    · exact hs.operator x c hc
  · rw [hindex]
    rcases hcases x c hc with ⟨rfl, rfl⟩ | hc
    · exact hs.indexed x b hb
    · exact hs.indexed x c hc

theorem StakeStep.filed (hs : s.Filed) (h : StakeStep ctx sender s s' m) : s'.Filed := by
  cases h with
  | @bond pk country x v hnone _ hbonds _ hread hindex _ =>
    refine ⟨fun a b hb => ?_, fun a b hb => ⟨_, hindex, (List.mem_insertionSort _).2 ?_⟩⟩
    · rw [hbonds] at hb
      by_cases ha : a = sender
      · subst ha
        rw [Function.update_self] at hb
        cases hb
        rfl
      · rw [Function.update_of_ne ha] at hb
        exact hs.operator a b hb
    · rw [hbonds] at hb
      by_cases ha : a = sender
      · exact List.mem_append_right _ (by simp [ha])
      · rw [Function.update_of_ne ha] at hb
        obtain ⟨index, hcell, hmem⟩ := hs.indexed a b hb
        -- the index read is the one in the cell
        cases v with
        | none => simp [Store.getDecoded_eq_none.1 hread] at hcell
        | some w =>
          have hw := (Store.getDecoded_eq_some.1 hread).1
          cases hw.symm.trans hcell
          exact List.mem_append_left _ hmem
  | addStake hb _ hbonds _ hindex _ => exact hs.update hb hbonds rfl hindex
  | unbond hb _ _ hbonds _ hindex _ => exact hs.update hb hbonds rfl hindex
  | withdraw _ hbonds _ hindex _ => exact hs.congr hbonds hindex
  | slash _ _ hb _ _ _ hbonds _ hindex _ _ => exact hs.update hb hbonds rfl hindex
  | other _ hframe =>
    obtain ⟨hbonds, -, hindex⟩ := Store.books_of_frame hframe
    exact hs.congr hbonds hindex

theorem Emits.books (h : Emits s es s') (hes : es.filterMap StoreEvent.took = []) :
    ∀ k : StoreKey, k.isStake = true → s' k = s k := fun k hk =>
  h.frame hes (by rintro a rfl; cases hk) (by rintro a d rfl; cases hk)

theorem Emits.filed (hs : s.Filed) (h : Emits s es s') : s'.Filed := by
  rcases h.quiet_or_message with hes | ⟨ctx, sender, m, rfl, hm⟩
  · obtain ⟨hbonds, -, hindex⟩ := Store.books_of_frame (h.books hes)
    exact hs.congr hbonds hindex
  · exact (Exec.applyMessage_stake hs hm).filed hs

/-! ## The module account -/

/-- What a message pays to the module account that is not stake. -/
def Message.gift (sender : Address) (s : Store) : Message → ℕ
  | .transfer dst d x _ => if dst = stakingAccount ∧ d = .native then x.val else 0
  | m => m.paysTo sender s stakingAccount .native

def StoreEvent.gift (s : Store) : StoreEvent → ℕ
  | message _ sender m => m.gift sender s
  | fee .. | nonce _ | pointer .. => 0

namespace Exec

theorem held_of_transfer {dst : Address} {d : Denom} {x : Amount} {reference : Option PaymentReference}
    (h : Runs (applyMessage ctx sender (.transfer dst d x reference)) s () s') (hsender : stakingAccount ≠ sender) :
    (s'.ledger .native).balance stakingAccount =
      (s.ledger .native).balance stakingAccount + (Message.transfer dst d x reference).gift sender s := by
  obtain ⟨r, -, h⟩ := loadAccount_keeps.run_read h
  obtain ⟨-, h⟩ := Runs.guard_iff.1 h
  obtain ⟨u, s₁, hpay, hacc⟩ := Runs.bind_iff.1 h
  have hsame : s' (.balance stakingAccount .native) = s₁ (.balance stakingAccount .native) :=
    ensureAccount_frame hacc nofun
  have hledger : (s'.ledger .native).balance stakingAccount = (s₁.ledger .native).balance stakingAccount := by
    simp only [Store.ledger, hsame]
  rw [hledger, balance_of_bankTransfer hpay hsender]
  rfl

theorem held_of_other (h : Runs (applyMessage ctx sender m) s () s') (hm : m.staked = false)
    (hsender : stakingAccount ≠ sender) (hgroup : s.groupAt stakingAccount = none) :
    (s'.ledger .native).balance stakingAccount = (s.ledger .native).balance stakingAccount + m.gift sender s := by
  -- the account is no group, so that a group a message works on is another one
  have hother : ∀ {group : Address}, Message.editsGroup m = some group → stakingAccount ≠ group := by
    rintro group hedits rfl
    obtain ⟨r, g, _, _, _, hedit⟩ := applyMessage_writesBack h hedits
    exact absurd (hedit.groupAt.symm.trans hgroup) (Option.some_ne_none _)
  cases m with
  | bond | addStake | unbond | withdrawUnbonded | reportEquivocation => cases hm
  | transfer dst d x reference => exact held_of_transfer h hsender
  | groupPayout | approveGroupAction | shareOut => exact balance_of_paysFromGroup h rfl (hother rfl)
  | contributeToGroup group | buyShares group | paySocialFund group | repayLoan group =>
    have hne := hother rfl
    refine balance_of_frame h rfl ?_
    rintro (hk | ⟨_, hk | hk⟩) <;> cases hk
    · exact hsender rfl
    · exact hne rfl
  | mint d dst x =>
    refine balance_of_frame h rfl fun hk => ?_
    simp only [Message.MayWrite, List.mem_cons, StoreKey.balance.injEq, reduceCtorEq, List.not_mem_nil, or_false] at hk
    have hmint := Runs.mapErr_iff.1 h
    unfold Bank.mint at hmint
    obtain ⟨i, s₁, hissuer, -⟩ := Runs.bind_iff.1 (Runs.guard_iff.1 hmint).2
    exact Bank.requireIssuer_ne_native hissuer hk.2.symm
  | burn d x => exact balance_of_frame h rfl (by simp [Message.MayWrite, hsender])
  | _ => exact balance_of_frame h rfl (Message.not_mayWrite (by simp))

end Exec

omit [Crypto] in
theorem Store.stakeOf_update {a : Address} {b : Option Bond} {queue : List Unbonding}
    (hbonds : s'.bondAt = Function.update s.bondAt a b) (hqueues : s'.queueAt = Function.update s.queueAt a queue) :
    s'.stakeOf = Function.update s.stakeOf a (b.elim 0 (·.bonded.val) + queued queue) := by
  funext x
  by_cases hx : x = a
  · subst hx
    simp [stakeOf, hbonds, hqueues]
  · simp [stakeOf, hbonds, hqueues, hx]

theorem StakeStep.escrow (h : StakeStep ctx sender s s' m) (hm : m.staked = true) (hsender : sender ≠ stakingAccount) :
    Escrow.Move 0 s.escrow s'.escrow := by
  cases h with
  | @bond pk country x v hnone _ hbonds hqueues _ _ hpaid =>
    have hqueues : s'.queueAt = Function.update s.queueAt sender (s.queueAt sender) := by simp [hqueues]
    refine .of_update (Store.stakeOf_update hbonds hqueues) ?_
    have := hpaid.credit hsender
    simp only [Store.escrow, Store.stakeOf, hnone, Bond.new, Option.elim]
    omega
  | @addStake x bonded b hb hadd hbonds hqueues _ hpaid =>
    have hqueues : s'.queueAt = Function.update s.queueAt sender (s.queueAt sender) := by simp [hqueues]
    refine .of_update (Store.stakeOf_update hbonds hqueues) ?_
    have := hpaid.credit hsender
    simp only [Store.escrow, Store.stakeOf, hb, Option.elim]
    omega
  | @unbond x bonded b hb hle hsub hbonds hqueues _ hledger =>
    refine .of_update (Store.stakeOf_update hbonds hqueues) ?_
    simp only [Store.escrow, Store.stakeOf, hb, Option.elim, hledger, queued_append, queued_cons, queued_nil]
    omega
  | @withdraw total htotal hbonds hqueues _ hpaid =>
    have hbonds : s'.bondAt = Function.update s.bondAt sender (s.bondAt sender) := by simp [hbonds]
    refine .of_update (Store.stakeOf_update hbonds hqueues) ?_
    have hsplit := queued_filter_add (fun e => e.matured ctx.time) (s.queueAt sender)
    simp only [Store.escrow, Store.stakeOf]
    rcases hpaid with ⟨hzero, hledger⟩ | hpaid
    · rw [hledger]
      omega
    · have := hpaid.debit hsender.symm
      omega
  | @slash evidence set b v total _ _ hb _ _ htotal hbonds hqueues _ hbalance _ =>
    refine .of_update (Store.stakeOf_update hbonds hqueues) ?_
    have hcut := Staking.cut_add_fraction b.bonded
    have hle := Staking.queued_slash_le evidence.first.vote.height (s.queueAt evidence.validator)
    unfold Staking.slashTotal at htotal
    simp only [Store.escrow, Store.stakeOf, hb, Option.elim]
    omega
  | other hm' _ => cases hm.symm.trans hm'

theorem Store.Guarded.groupAt_module (happart : AddressesApart) (hs : s.Guarded) (seed : Bytes) :
    s.groupAt (Address.derived .moduleAddress seed) = none := by
  cases hg : s.groupAt (Address.derived .moduleAddress seed) with
  | none => rfl
  | some g =>
    unfold groupAt at hg
    split at hg
    · rename_i r hr
      have hrecord := record_of_read hr
      have hkind := (hs (Address.derived .moduleAddress seed)).kind
      rw [hrecord] at hkind
      rcases hkind with ⟨key, hkind⟩ | ⟨g', seed', -, haddress⟩
      · simp only [Option.getD_some] at hkind
        simp [Account.asGroup, hkind] at hg
      · exact absurd haddress.symm (happart.groupModule seed' seed)
    · cases hg

theorem Acts.escrow (happart : AddressesApart) (hcollector : Exec.feeCollectorAddress ≠ stakingAccount) (hs : s.Guarded)
    (hfiled : s.Filed) (h : Acts s es s') : Escrow.Move ((es.map fun ev => ev.gift s).sum) s.escrow s'.escrow := by
  obtain ⟨hemits, howned⟩ := h
  have hactor : ∀ ev ∈ es, ∀ a, ev.actor = some a → a ≠ stakingAccount := by
    rintro ev hev a ha rfl
    exact happart.module_not_owned _ (howned ev hev _ ha)
  have hquiet : (∀ k : StoreKey, k.isStake = true → s' k = s k) →
      (s'.ledger .native).balance stakingAccount = (s.ledger .native).balance stakingAccount →
      Escrow.Move 0 s.escrow s'.escrow := by
    intro hbooks hbalance
    obtain ⟨hbonds, hqueues, -⟩ := Store.books_of_frame hbooks
    exact .of_owed (funext fun a => by simp [Store.escrow, Store.stakeOf, hbonds, hqueues]) hbalance
  cases hemits with
  | @fee _ payer d x hpay =>
    have hpayer : payer ≠ stakingAccount := hactor _ (.head _) payer rfl
    refine hquiet (Emits.books (.fee hpay) rfl) ?_
    rw [Exec.balance_of_bankTransfer hpay hpayer.symm]
    simp [hcollector]
  | @message _ ctx sender m hm =>
    have hsender : sender ≠ stakingAccount := hactor _ (.head _) sender rfl
    simp only [List.map_cons, List.map_nil, List.sum_cons, List.sum_nil, Nat.add_zero, StoreEvent.gift]
    cases hstaked : m.staked with
    | true =>
      have hgift : m.gift sender s = 0 := by
        cases m <;> first | rfl | cases hstaked
      rw [hgift]
      exact (Exec.applyMessage_stake hfiled hm).escrow hstaked hsender
    | false =>
      have hbooks : ∀ k : StoreKey, k.isStake = true → s' k = s k := by
        intro k hk
        refine (Exec.applyMessage_keeps.run hm).1.frame k fun hmay => ?_
        simp [Message.not_stake_of_mayWrite hstaked hmay] at hk
      obtain ⟨hbonds, hqueues, -⟩ := Store.books_of_frame hbooks
      refine .of_owed (funext fun a => by simp [Store.escrow, Store.stakeOf, hbonds, hqueues]) ?_
      exact Exec.held_of_other hm hstaked hsender.symm (hs.groupAt_module happart _)
  | nonce a =>
    refine hquiet (Emits.books (.nonce s a) rfl) ?_
    rfl
  | pointer a p =>
    refine hquiet (Emits.books (.pointer s a p) rfl) ?_
    rfl

end

end AfroLink
