import AfroLink.Bank.Lemmas.Ledger
import AfroLink.Executor.Lemmas.Edits

/-!
# Every message moves money as the bank does

Messages touch balances, supplies and freezes through the operations of the bank alone. What those operations keep to,
every message keeps to: one lemma a function, down to the message dispatcher. For the ledger it follows that what is
held and what is stated change together, and that only the accounts a message may debit lose anything.
-/

namespace AfroLink

/-! ## Key classes -/

namespace StoreKey

variable {k : StoreKey}

/-- The cells the bank moves money by: balances, supplies and freezes. -/
@[reducible] def isBank : StoreKey → Bool
  | frozen .. => true
  | k => k.isMoney

theorem isBank_of_isMoney (h : k.isMoney = true) : k.isBank = true := by
  cases k <;> first | rfl | cases h

end StoreKey

/-! ## Relations the bank keeps to -/

/-- A relation of stores that looks at the cells of the bank only, and along which the bank moves the store when it
pays out of an account that may be debited. -/
structure BankRelation (debtor : Address → Denom → Prop) (R : Store → Store → Prop) : Prop where
  frame : ∀ {s s' : Store}, (∀ k : StoreKey, k.isBank = true → s' k = s k) → R s s'
  transfer : ∀ {src dst : Address} {d : Denom} {x : Amount}, debtor src d → Preserves R (Bank.transfer src dst d x)
  slash : ∀ {src : Address} {x : Amount}, debtor src .native → Preserves R (Bank.slashNative src x)

variable {debtor : Address → Denom → Prop} {R : Store → Store → Prop}

theorem BankRelation.refl (hR : BankRelation debtor R) (s : Store) : R s s := hR.frame fun _ _ => rfl

theorem BankRelation.keeps {ε α : Type} [StateFault ε] {F : StoreKey → Prop} {P : Store → α → Prop} {x : StoreM ε α}
    (hR : BankRelation debtor R) (h : ∀ s, Keeps F False (P s) x s) (hF : ∀ k, F k → k.isBank = false) :
    Preserves R x := by
  refine fun s => wp.mono (h s) (fun _ _ h' => hR.frame fun k hk => h'.1.frame k fun hf => ?_) fun _ _ _ => trivial
  simp [hF k hf] at hk

theorem BankRelation.read {ε α : Type} [StateFault ε] {P : Store → α → Prop} {x : StoreM ε α} (hR : BankRelation debtor R)
    (h : ∀ s, Keeps ⊥ False (P s) x s) : Preserves R x := hR.keeps h fun _ => False.elim

theorem ledgerMove_bank : BankRelation debtor (LedgerMove debtor) where
  frame h d := by
    rw [Store.ledger_congr (fun k hk => h k (StoreKey.isBank_of_isMoney hk)) d]
    exact .refl _
  transfer := Bank.transfer_move
  slash := Bank.slashNative_move

/-! ## Reads, and writes elsewhere -/

variable (hR : BankRelation debtor R)

include hR

namespace Staking

theorem requireBond_along {a : Address} : Preserves R (requireBond a) := hR.read fun _ => requireBond_keeps

theorem unbondingOf_along {a : Address} : Preserves R (unbondingOf a) := hR.read fun _ => unbondingOf_keeps

theorem candidates_along : Preserves R candidates := hR.read fun _ => candidates_keeps

theorem writeQueue_along {a : Address} {queue : List Unbonding} : Preserves R (writeQueue a queue) :=
  hR.keeps (F := (· = .unbonding a)) (fun _ => writeQueue_keeps rfl False.elim) fun _ h => h ▸ rfl

theorem writeBond_along {b : Bond} : Preserves R (writeBond b) :=
  hR.keeps (F := (· = .bond b.operator)) (fun _ => writeBond_keeps rfl) fun _ h => h ▸ rfl

theorem orZero_along {α : Type} {r : Except PrimError α} : Preserves R (orZero r) :=
  hR.read fun _ => .result fun _ _ => rfl

end Staking

namespace Exec

theorem ensureAccount_along {a : Address} : Preserves R (ensureAccount a) :=
  hR.keeps (F := (· = .account a)) (fun _ => ensureAccount_keeps rfl) fun _ h => h ▸ rfl

theorem bankTransfer_along {src dst : Address} {d : Denom} {x : Amount} (h : debtor src d) :
    Preserves R (bankTransfer src dst d x) := .mapErr (hR.transfer h)

end Exec

variable [IsTrans Store R]

/-! ## Staking -/

namespace Staking

variable [Crypto] {params : StakingParams}

variable {operator : Address}

theorem bond_along {publicKey : PublicKey} {country : CountryCode} {amount : Amount}
    (h : debtor operator .native) : Preserves R (bond params operator publicKey country amount) := by
  unfold bond
  refine .guard <| .guard <| .bind (hR.read fun _ => .get) fun held => .guard <| .bind (candidates_along hR)
    fun index => .guard <| .bind (.mapErr (hR.transfer h)) fun _ => .bind (writeBond_along hR) fun _ => ?_
  exact hR.keeps (F := (· = .bondIndex)) (fun _ => .set rfl False.elim) fun _ h => h ▸ rfl

theorem addStake_along {amount : Amount} (h : debtor operator .native) : Preserves R (addStake operator amount) := by
  unfold addStake
  exact .guard <| .bind (requireBond_along hR) fun b => .bind (.mapErr (hR.transfer h)) fun _ =>
    .bind (orZero_along hR) fun _ => writeBond_along hR

theorem withdraw_along {now : Timestamp} (h : debtor stakingAccount .native) : Preserves R (withdraw operator now) := by
  refine .bind (unbondingOf_along hR) fun queue => .guard <| .bind (orZero_along hR) fun total =>
    .bind (writeQueue_along hR) fun _ => .ite (.bind (.mapErr (hR.transfer h)) fun _ s => ?_) fun s => ?_
  · exact hR.refl s
  · exact hR.refl s

theorem slash_along {infraction now : Height} (h : debtor stakingAccount .native) :
    Preserves R (slash operator infraction now) := by
  refine .bind (requireBond_along hR) fun b => .guard <| .bind (unbondingOf_along hR) fun queue =>
    .bind (orZero_along hR) fun r => .bind (orZero_along hR) fun total => .bind (orZero_along hR) fun bonded =>
    .bind (writeBond_along hR) fun _ => .bind (writeQueue_along hR) fun _ =>
    .ite (.bind (.mapErr (hR.slash h)) fun _ s => ?_) fun s => ?_
  · exact hR.refl s
  · exact hR.refl s

theorem slashEquivocation_along {evidence : Equivocation} {set : ValidatorSet} {height : Height}
    (h : debtor stakingAccount .native) : Preserves R (slashEquivocation evidence set height) := by
  unfold slashEquivocation
  exact .guard (slash_along hR h)

end Staking

/-! ## What a message may debit -/

omit hR

/-- The record at `group` is a group's, and `member` belongs to it. -/
def Store.HasGroupMember (s : Store) (group member : Address) : Prop :=
  ∃ a g, s.getDecoded (.account group) = .ok (some a) ∧ a.asGroup = some g ∧ g.isMember member = true

/-- The message takes from the stake held by the staking module. -/
def Message.takesStake : Message → Bool
  | .withdrawUnbonded | .reportEquivocation _ => true
  | _ => false

/-- Whom a message of `sender` may debit, in the store it is applied to. -/
def Message.MayDebit [Crypto] (m : Message) (sender : Address) (s : Store) (a : Address) : Prop :=
  a = sender ∨ m.paysFromGroup = some a ∧ s.HasGroupMember a sender ∨ m.takesStake = true ∧ a = stakingAccount

namespace Exec

variable {α : Type}

variable {s : Store} {sender : Address} {d : Denom} {m : Message} {ctx : BlockContext}

include hR

theorem staking_along {op : StakingParams → Staking.M α} (h : ∀ p, Preserves R (op p)) : Preserves R (staking op) :=
  .bind (hR.read fun _ => paramsOf_keeps) fun p => .mapErr (h p.staking)

theorem payAll_along {src : Address} {payments : List (Address × Amount)} (h : debtor src d) :
    Preserves R (payAll src d payments) := by
  induction payments with
  | nil => exact fun s => hR.refl s
  | cons p rest ih => exact .bind (bankTransfer_along hR h) fun _ => ih

theorem transfer_along {dst : Address} {x : Amount} {reference : Option PaymentReference}
    (h : debtor sender d) : Preserves R (transfer sender dst d x reference) :=
  .bind (hR.read fun _ => loadAccount_keeps) fun _ => .guard <| .bind (bankTransfer_along hR h) fun _ =>
    ensureAccount_along hR

variable [Crypto]

theorem reportEquivocation_along {height : Height} {evidence : Equivocation} (h : debtor stakingAccount .native) :
    Preserves R (reportEquivocation height evidence) := by
  refine .bind (hR.read fun _ => staking_keeps fun _ => Staking.currentSet_keeps) fun set =>
    .bind (staking_along hR fun p => ?_) fun _ s => ?_
  · exact Staking.slashEquivocation_along hR h
  · exact hR.refl s

theorem editsGroup_along {group : Address} (hm : Message.editsGroup m = some group) (hsender : ∀ d, debtor sender d)
    (hgroup : m.paysFromGroup = some group → s.HasGroupMember group sender → ∀ d, debtor group d) :
    wp (applyMessage ctx sender m) (fun _ s' => R s s') (fun _ _ => True) s := by
  refine wp.iff_runs.2 fun _ s' h => ?_
  obtain ⟨r, g, g', payer, payments, h⟩ := applyMessage_writesBack h hm
  obtain ⟨s₁, hpaid, rfl⟩ := h.paid
  have hpay : R s s₁ := by
    rcases h.edit.payer_eq with rfl | ⟨rfl, rfl | hpays⟩
    · exact (payAll_along hR (hsender _)).run hpaid
    · obtain ⟨-, rfl⟩ := Runs.pure_iff.1 hpaid
      exact hR.refl s
    · exact (payAll_along hR (hgroup hpays ⟨r, g, h.read, h.group, h.member⟩ _)).run hpaid
  refine IsTrans.trans _ _ _ hpay (hR.frame fun k hk => Store.set_of_ne ?_)
  rintro rfl
  cases hk

omit [IsTrans Store R] in
theorem applyMessage_frame (h : .balance ∉ m.kinds ∧ .supply ∉ m.kinds ∧ .frozen ∉ m.kinds) :
    wp (applyMessage ctx sender m) (fun _ s' => R s s') (fun _ _ => True) s := by
  refine wp.mono applyMessage_keeps (fun _ _ h' => hR.frame fun k hk => h'.1.frame k (Message.not_mayWrite ?_))
    fun _ _ _ => trivial
  cases k <;> first | exact h.1 | exact h.2.1 | exact h.2.2 | cases hk

/-- Every message keeps to a relation of the bank, given that a mint, a burn and a freeze do. It debits only its sender,
the group it pays from or the staked coin. -/
theorem applyMessage_along (hsender : ∀ d, debtor sender d)
    (hgroup : ∀ group, m.paysFromGroup = some group → s.HasGroupMember group sender → ∀ d, debtor group d)
    (hstake : m.takesStake = true → ∀ d, debtor stakingAccount d)
    (hmint : ∀ d dst x, m = .mint d dst x → Preserves R (Bank.mint sender dst d x))
    (hburn : ∀ d x, m = .burn d x → Preserves R (Bank.burn sender d x))
    (hfreeze : ∀ d a frozen, m = .setFrozen d a frozen →
      Preserves R (if frozen then Bank.freeze sender a d else Bank.unfreeze sender a d)) :
    wp (applyMessage ctx sender m) (fun _ s' => R s s') (fun _ _ => True) s := by
  cases m with
  | transfer dst d x reference => exact transfer_along hR (hsender d) s
  | contributeToGroup | groupPayout | buyShares | paySocialFund | approveGroupAction | repayLoan | shareOut =>
    exact editsGroup_along hR rfl hsender (hgroup _)
  | bond =>
    unfold applyMessage
    refine staking_along hR (fun p => ?_) s
    exact Staking.bond_along hR (hsender _)
  | addStake =>
    unfold applyMessage
    refine staking_along hR (fun p => ?_) s
    exact Staking.addStake_along hR (hsender _)
  | withdrawUnbonded =>
    refine Preserves.bind (staking_along hR fun p => ?_) (fun _ s => ?_) s
    · exact Staking.withdraw_along hR (hstake rfl _)
    · exact hR.refl s
  | reportEquivocation evidence => exact reportEquivocation_along hR (hstake rfl _) s
  | mint d dst x => exact Preserves.mapErr (hmint d dst x rfl) s
  | burn d x => exact Preserves.mapErr (hburn d x rfl) s
  | setFrozen d a frozen => exact Preserves.mapErr (hfreeze d a frozen rfl) s
  | _ => exact applyMessage_frame hR (by simp)

omit hR [IsTrans Store R] [Crypto]

/-! ## The ledger -/

theorem bankTransfer_move {src dst : Address} {x : Amount} (h : debtor src d) :
    Preserves (LedgerMove debtor) (bankTransfer src dst d x) := bankTransfer_along ledgerMove_bank h

theorem freeze_move {a caller : Address} {frozen : Bool} :
    Preserves (LedgerMove debtor) (if frozen then Bank.freeze caller a d else Bank.unfreeze caller a d) := by
  intro s
  split
  · simp [Bank.freeze]
  · simp [Bank.unfreeze]

theorem applyMessage_move [Crypto] {s' : Store} {u : Unit}
    (h : Runs (applyMessage ctx sender m) s u s') : LedgerMove (fun a _ => m.MayDebit sender s a) s s' := by
  have hdebits : wp (applyMessage ctx sender m) (fun _ s' => LedgerMove (fun a _ => m.MayDebit sender s a) s s')
      (fun _ _ => True) s :=
    applyMessage_along ledgerMove_bank (fun _ => .inl rfl) (fun _ hg hm _ => .inr (.inl ⟨hg, hm⟩))
      (fun hs _ => .inr (.inr ⟨hs, rfl⟩)) (fun _ _ _ _ => Bank.mint_move) (fun _ _ _ => Bank.burn_move (.inl rfl))
      fun _ _ _ _ => freeze_move
  exact wp.iff_runs.1 hdebits u s' h

end Exec

end AfroLink
