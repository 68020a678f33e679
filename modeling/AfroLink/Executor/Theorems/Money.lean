import AfroLink.Crypto.Sample
import AfroLink.Executor.Lemmas.Events

/-!
# What executing blocks can do to money

Supply is conserved over every sequence of blocks, nobody is debited without consent, and a transaction that
fails leaves its fee, its nonce and its history pointers and nothing else.
-/

namespace AfroLink

open Exec

/-! ## Supply -/

/-- For every denomination the balances add up to the stated supply. -/
def Store.Solvent (s : Store) : Prop := ∀ d, (s.ledger d).Balanced

theorem executeBlocks_conserves_supply [Crypto] [StateRoot] (e : Executor)
    (blocks : List (BlockContext × List Transaction)) (s : Store) (h : s.Solvent) :
    (executeBlocks e blocks s).Solvent := by
  induction blocks generalizing s with
  | nil => exact h
  | cons block rest ih =>
    exact ih _ fun d => (h d).move (executeTxs_move e block.1 block.2 s d)

namespace Sample

/-- Account 1 holds all there is, and has reached `nonce`. -/
def funded (nonce : U64) : Store :=
  ((Store.empty.withBalance (addressOf 1) .native 1000).withSupply .native 1000).set (.account (addressOf 1))
    ({ Account.individual (addressOf 1) with nonce } : Account)

/-- A transfer of `amount` from account 1 to account 2, with a fee of 10. -/
def payment (nonce : U64) (amount : Amount) : Transaction :=
  TxBody.sign
    { chainId := chain, sender := addressOf 1, nonce, validUntil := 10
      fee := { amount := 10, denom := Denom.native, payer := none }
      messages := [.transfer (addressOf 2) Denom.native amount none], memo := "" } (key 1)

def sent (n : ℕ) (nonce : U64) (messages : List Message) : Transaction :=
  TxBody.sign
    { chainId := chain, sender := addressOf n, nonce, validUntil := 10
      fee := { amount := 10, denom := Denom.native, payer := none }, messages, memo := "" } (key n)

scoped instance : StateRoot where
  root s := digest ((List.range 6).flatMap fun n => leBytes 16 ((s.ledger .native).balance (addressOf n)))

theorem empty_solvent : Store.empty.Solvent := fun d => by
  simp [Ledger.Balanced, Ledger.held, Store.ledger, Store.empty, Cell.amount]

theorem funded_solvent (nonce : U64) : (funded nonce).Solvent := by
  have hissued : LedgerMove (fun _ _ => True) .empty (funded nonce) :=
    (LedgerMove.set_right rfl).2 (Bank.issue_move (v := none) (w := none) (x := 1000) rfl rfl rfl rfl)
  exact fun d => (empty_solvent d).move (hissued d)

theorem executeBlocks_conserves_supply_payment :
    (funded 0).Solvent ∧ (executeBlocks ⟨chain⟩ [(⟨1, 5⟩, [payment 0 100])] (funded 0)).Solvent :=
  ⟨funded_solvent 0, executeBlocks_conserves_supply _ _ _ (funded_solvent 0)⟩

end Sample

/-! ## Consent -/

/-- The record of `a`, a fresh individual's where there is none, accepts these keys. -/
def Store.AuthorisedBy [Crypto] (s : Store) (a : Address) (keys : List PublicKey) : Prop :=
  ∃ v, s.getDecoded (.account a) = .ok v ∧ (v.getD (Account.individual a)).authorises keys = true

/-- The store `m` is applied to: the fee has been taken and the messages before it have run. -/
def Exec.AppliedIn [Crypto] (ctx : BlockContext) (t : Transaction) (s : Store) (m : Message) (s₂ : Store) : Prop :=
  ∃ before after s₁, t.body.messages = before ++ m :: after ∧
    Runs (bankTransfer (t.body.fee.payerOr t.body.sender) feeCollectorAddress t.body.fee.denom
      t.body.fee.amount) s () s₁ ∧
    Runs (applyMessages ctx t.body.sender before) s₁ () s₂

theorem executeTx_debit_needs_consent [Crypto] (e : Executor) (ctx : BlockContext) (t : Transaction) (s : Store)
    (x : Address) (d : Denom)
    (hx : ((executeTx e ctx t s).1.ledger d).balance x < (s.ledger d).balance x) :
    x = t.body.sender ∧ s.AuthorisedBy x t.signingKeys ∨
    t.body.fee.payer = some x ∧ d = t.body.fee.denom ∧ s.AuthorisedBy x t.sponsorKeys ∨
    (∃ m s₂, AppliedIn ctx t s m s₂ ∧ m.paysFromGroup = some x ∧ s₂.HasGroupMember x t.body.sender) ∨
    x = stakingAccount ∧ ∃ m ∈ t.body.messages, m.takesStake = true := by
  rcases executeTx_cases e ctx t s with ⟨err, h, -⟩ | ⟨s₁, hc, -, -, hpay, h⟩
  · rw [h] at hx
    exact absurd hx (lt_irrefl _)
  · rw [h] at hx
    obtain ⟨v, hv, hauth, -⟩ := hc.sender
    by_cases hfee : (s₁.ledger d).balance x < (s.ledger d).balance x
    · -- the fee took it: from the sponsor if one is named, else from the sender
      have hmove : LedgerMove (fun a d' => a = t.body.fee.payerOr t.body.sender ∧ d' = t.body.fee.denom) s s₁ :=
        (bankTransfer_move ⟨rfl, rfl⟩).run hpay
      obtain ⟨hxp, hd⟩ := (hmove d).debits x hfee
      cases hp : t.body.fee.payer with
      | none =>
        rw [Fee.payerOr, hp] at hxp
        exact .inl ⟨hxp, hxp ▸ ⟨v, hv, hauth⟩⟩
      | some payer =>
        rw [Fee.payerOr, hp] at hxp
        exact .inr (.inl ⟨congrArg some hxp.symm, hd, hxp ▸ hc.sponsor payer hp⟩)
    · have hdrop : ((settle ctx t (t.body.fee.payerOr t.body.sender) s₁).1.ledger d).balance x <
        (s₁.ledger d).balance x := by omega
      obtain ⟨before, m, after, s₂, hms, hrun, hmay⟩ := settle_debit hdrop
      rcases hmay with rfl | ⟨hg, hm⟩ | ⟨hs, rfl⟩
      · exact .inl ⟨rfl, v, hv, hauth⟩
      · exact .inr (.inr (.inl ⟨m, s₂, ⟨before, after, s₁, hms, hpay, hrun⟩, hg, hm⟩))
      · exact .inr (.inr (.inr ⟨rfl, m, by simp [hms], hs⟩))

/-- Account 1 is debited by its own payment, and no other case of the theorem explains it. -/
theorem Sample.executeTx_debit_needs_consent_payment :
    (funded 0).AuthorisedBy (addressOf 1) (payment 0 100).signingKeys := by
  have hmsg : ∀ m ∈ (payment 0 100).body.messages, m.paysFromGroup = none ∧ m.takesStake = false := by
    decide +kernel
  rcases executeTx_debit_needs_consent ⟨chain⟩ ⟨1, 5⟩ (payment 0 100) (funded 0) (addressOf 1) .native
    (by decide +kernel) with ⟨-, h⟩ | ⟨h, -⟩ | ⟨m, s₂, ⟨before, after, s₁, hms, -⟩, hg, -⟩ | ⟨-, m, hm, hs⟩
  · exact h
  · cases h
  · have hm : m ∈ (payment 0 100).body.messages := by simp [hms]
    simp [(hmsg m hm).1] at hg
  · simp [(hmsg m hm).2] at hs

/-! ## Failure -/

/-- The record of `a` after a failed transaction: the sender's nonce has moved on, and the history pointer
points here. -/
def Exec.chargedRecord [Crypto] (ctx : BlockContext) (t : Transaction) (s : Store) (a : Address) : Account :=
  { readOrFresh s a with
    nonce := if a = t.body.sender then (readOrFresh s a).nonce.saturatingAdd 1 else (readOrFresh s a).nonce
    lastTxn := some ⟨t.id, ctx.height⟩ }

theorem executeTx_failure_isolated [Crypto] (e : Executor) (ctx : BlockContext) (t : Transaction) (s : Store) :
    (rejects e ctx t s = true →
      (executeTx e ctx t s).1 = s ∧ (executeTx e ctx t s).2.receipt.feeCharged = 0 ∧
        (executeTx e ctx t s).2.receipt.touched = []) ∧
    (failsAfterFee e ctx t s = true → ∃ s₁,
      Bank.Paid (t.body.fee.payerOr t.body.sender) feeCollectorAddress t.body.fee.denom t.body.fee.amount s s₁ ∧
      (∀ a, a = t.body.sender ∨ a = t.body.fee.payerOr t.body.sender →
        (executeTx e ctx t s).1 (.account a) = some (.value (chargedRecord ctx t s a))) ∧
      ∀ k, (∀ a, a = t.body.sender ∨ a = t.body.fee.payerOr t.body.sender → k ≠ .account a) →
        (executeTx e ctx t s).1 k = s₁ k) := by
  rcases executeTx_cases e ctx t s with ⟨err, h, hf, -⟩ | ⟨s₁, -, hr, hf, hpay, h⟩
  · rw [h, hf]
    exact ⟨fun _ => ⟨rfl, rfl, rfl⟩, nofun⟩
  · rw [hr, hf, h]
    refine ⟨nofun, fun hm => ⟨s₁, ?_, fun a ha => ?_, fun k hk => ?_⟩⟩
    · exact paid_of_runs hpay
    · have hrec : ∀ b, readOrFresh s₁ b = readOrFresh s b := fun b =>
        readOrFresh_congr ((paid_of_runs hpay).frame rfl)
      rw [settle_of_messagesFail hm, touchAll_of_mem (mem_sortDedup.2 (by simpa using ha)), bumpNonce, hrec]
      by_cases hs : a = t.body.sender
      · rw [hs, readOrFresh_set ((Account.decodeError_incrementNonce _).trans (readOrFresh_decodes s _))]
        simp [chargedRecord, pointAt, Account.incrementNonce]
      · rw [readOrFresh_congr (Store.set_of_ne (by simpa using hs)), hrec]
        simp [chargedRecord, pointAt, hs]
    · rw [settle_of_messagesFail hm, touchAll_of_not_mem fun a ha => hk a (by simpa [mem_sortDedup] using ha)]
      exact Store.set_of_ne (hk _ (.inl rfl))

namespace Sample

/-- A wrong nonce turns the payment away; a payment beyond the balance leaves the recipient's record alone. -/
theorem executeTx_failure_isolated_payment :
    (executeTx ⟨chain⟩ ⟨1, 5⟩ (payment 7 100) (funded 0)).1 = funded 0 ∧
    (executeTx ⟨chain⟩ ⟨1, 5⟩ (payment 0 100000) (funded 0)).1 (.account (addressOf 2)) = none := by
  refine ⟨((executeTx_failure_isolated ⟨chain⟩ ⟨1, 5⟩ (payment 7 100) (funded 0)).1 (by decide +kernel)).1, ?_⟩
  obtain ⟨s₁, hpaid, -, hrest⟩ :=
    (executeTx_failure_isolated ⟨chain⟩ ⟨1, 5⟩ (payment 0 100000) (funded 0)).2 (by decide +kernel)
  have hne : addressOf 1 ≠ addressOf 2 := by decide +kernel
  rw [hrest _ fun a ha h => ?_, hpaid.frame rfl]
  · decide +kernel
  · cases h
    exact hne (ha.elim Eq.symm Eq.symm)

/-- At the last nonce there is no next one: the transaction fails, pays, and can be sent again. -/
theorem executeTx_last_nonce_stays :
    failsAfterFee ⟨chain⟩ ⟨1, 5⟩ (payment (Fin.last _) 100000) (funded (Fin.last _)) = true ∧
    (readOrFresh (executeTx ⟨chain⟩ ⟨1, 5⟩ (payment (Fin.last _) 100000) (funded (Fin.last _))).1
      (addressOf 1)).nonce.val ≠ (readOrFresh (funded (Fin.last _)) (addressOf 1)).nonce.val + 1 := by
  decide +kernel

end Sample

end AfroLink
