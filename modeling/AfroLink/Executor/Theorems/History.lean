import AfroLink.Executor.Theorems.Money
import AfroLink.Executor.Lemmas.Payouts

/-!
# What the history of an account shows

A receipt names the accounts whose history the transaction belongs to.
-/

namespace AfroLink

open Exec

namespace Exec

def feePaidBy (t : Transaction) (a : Address) (d : Denom) : ℕ :=
  if a = t.body.fee.payerOr t.body.sender ∧ d = t.body.fee.denom then t.body.fee.amount.val else 0

section

variable {s s' : Store} {pointer : TxPointer} {l : List Address} {d : Denom} {a payer : Address}

theorem books_ledger (x : Address) : (touchAll pointer l (bumpNonce s x)).1.ledger d = s.ledger d := by
  refine Store.ledger_congr (fun k hk => ?_) d
  rw [touchAll_of_not_mem fun a _ h => by subst h; cases hk]
  exact Store.set_of_ne fun h => by subst h; cases hk

variable [Crypto] {ctx : BlockContext} {t : Transaction}

theorem settle_success (payer : Address) (h : messagesFail ctx t s = false) : ∃ s',
    Runs (applyMessages ctx t.body.sender t.body.messages) s () s' ∧
    (∀ d, (settle ctx t payer s).1.ledger d = s'.ledger d) ∧
    (settle ctx t payer s).2.receipt.touched.map (·.address) = t.touchedAddresses := by
  unfold messagesFail at h
  unfold settle
  cases hm : applyMessages ctx t.body.sender t.body.messages s with
  | error err s' => simp [hm] at h
  | ok u s' => exact ⟨s', hm, fun d => books_ledger _, touchAll_addresses⟩

theorem settle_failure (payer : Address) (h : messagesFail ctx t s = true) :
    (∀ d, (settle ctx t payer s).1.ledger d = s.ledger d) ∧
    (settle ctx t payer s).2.receipt.touched.map (·.address) = sortDedup [t.body.sender, payer] := by
  unfold messagesFail at h
  unfold settle
  cases hm : applyMessages ctx t.body.sender t.body.messages s with
  | ok u s' => simp [hm] at h
  | error err s' => exact ⟨fun d => books_ledger _, touchAll_addresses⟩

theorem balance_of_fee
    (h : Runs (bankTransfer (t.body.fee.payerOr t.body.sender) feeCollectorAddress t.body.fee.denom t.body.fee.amount)
      s () s') (ha : a ≠ feeCollectorAddress) :
    (s'.ledger d).balance a + feePaidBy t a d = (s.ledger d).balance a := by
  unfold feePaidBy
  by_cases hp : a = t.body.fee.payerOr t.body.sender
  · subst hp
    cases paid_of_runs h with
    | self hself => exact absurd hself ha
    | moved y z hne hy hz =>
      by_cases hd : d = t.body.fee.denom
      · subst hd
        simpa [Store.ledger_withBalance, hne] using hy
      · simp [Store.ledger_withBalance_of_ne hd, hd]
  · rw [balance_of_bankTransfer h hp]
    simp [hp, ha.symm]

end

end Exec

/-! ## Money and history -/

theorem executeTx_moves_within_history_iff [Crypto] (e : Executor) (ctx : BlockContext) (t : Transaction) (s : Store)
    (hcharged : rejects e ctx t s = false) :
    (∀ x d, x ≠ feeCollectorAddress → x ≠ stakingAccount →
      ((executeTx e ctx t s).1.ledger d).balance x ≠ (s.ledger d).balance x →
      (executeTx e ctx t s).2.receipt.names x) ↔
    messagesFail ctx t (afterFee t s) = true ∨
      ∀ x d, x ≠ feeCollectorAddress → x ≠ stakingAccount → x ∉ t.touchedAddresses →
        paidTo ctx t.body.sender x d t.body.messages (afterFee t s) = feePaidBy t x d := by
  rcases executeTx_cases e ctx t s with ⟨err, -, -, hrej⟩ | ⟨s₁, -, -, -, hpay, h⟩
  · simp [hrej] at hcharged
  rw [h, afterFee_of_runs hpay]
  unfold TxReceipt.names
  cases hm : messagesFail ctx t s₁ with
  | true =>
    obtain ⟨hledger, htouched⟩ := settle_failure (t.body.fee.payerOr t.body.sender) hm
    refine ⟨fun _ => .inl rfl, fun _ x d hfee _ hne => ?_⟩
    rw [htouched, mem_sortDedup]
    rw [hledger] at hne
    have hpaid := balance_of_fee (a := x) (d := d) hpay hfee
    by_contra hx
    have hzero : feePaidBy t x d = 0 := by
      simp only [List.mem_cons, List.not_mem_nil, or_false, not_or] at hx
      simp [feePaidBy, hx.2]
    omega
  | false =>
    obtain ⟨s', hrun, hledger, htouched⟩ := settle_success (t.body.fee.payerOr t.body.sender) hm
    rw [htouched]
    have hbalance : ∀ x d, x ≠ feeCollectorAddress → x ≠ stakingAccount → x ∉ t.touchedAddresses →
        (s'.ledger d).balance x + feePaidBy t x d =
          (s.ledger d).balance x + paidTo ctx t.body.sender x d t.body.messages s₁ := by
      intro x d hfee hstaking hx
      rw [Transaction.touchedAddresses, mem_sortDedup, List.mem_cons, not_or] at hx
      have hpaid := balance_of_fee (a := x) (d := d) hpay hfee
      have hmessages := balance_of_applyMessages d hrun hx.1 hx.2 hstaking
      omega
    constructor
    · intro hall
      refine .inr fun x d hfee hstaking hx => ?_
      have hsame : (s'.ledger d).balance x = (s.ledger d).balance x := by
        by_contra hne
        exact hx (hall x d hfee hstaking (by rwa [hledger]))
      have := hbalance x d hfee hstaking hx
      omega
    · rintro (hfalse | hall) x d hfee hstaking hne
      · cases hfalse
      · by_contra hx
        rw [hledger] at hne
        have := hbalance x d hfee hstaking hx
        have := hall x d hfee hstaking hx
        omega

namespace Sample

def sponsoring : Store :=
  ((Store.empty.withBalance (addressOf 1) .native 1000).withBalance (addressOf 3) .native 1000).withSupply .native 2000

/-- A transfer of 100 from account 1 to account 2, whose fee account 3 pays. -/
def sponsoredPayment : Transaction :=
  let body : TxBody :=
    { chainId := chain, sender := addressOf 1, nonce := 0, validUntil := 10
      fee := { amount := 10, denom := Denom.native, payer := some (addressOf 3) }
      messages := [.transfer (addressOf 2) Denom.native 100 none], memo := "" }
  let signedBy (n : ℕ) : TxSignature := ⟨(key n).publicKey, (key n).sign .txSignDoc body.signDoc⟩
  { body, signatures := [signedBy 1], sponsorSignatures := [signedBy 3] }

/-- The sponsor of a successful transaction pays, and the receipt does not name it. -/
theorem sponsor_not_in_history :
    rejects ⟨chain⟩ ⟨1, 5⟩ sponsoredPayment sponsoring = false ∧
    addressOf 3 ≠ feeCollectorAddress ∧ addressOf 3 ≠ stakingAccount ∧
    ((executeTx ⟨chain⟩ ⟨1, 5⟩ sponsoredPayment sponsoring).1.ledger .native).balance (addressOf 3) ≠
      (sponsoring.ledger .native).balance (addressOf 3) ∧
    ¬ (executeTx ⟨chain⟩ ⟨1, 5⟩ sponsoredPayment sponsoring).2.receipt.names (addressOf 3) := by
  decide +kernel

/-- A payment whose sender pays the fee names everyone whose money it moves. -/
theorem executeTx_moves_within_history_iff_payment :
    rejects ⟨chain⟩ ⟨1, 5⟩ (payment 0 100) (funded 0) = false ∧
    ∀ x d, x ≠ feeCollectorAddress → x ≠ stakingAccount →
      ((executeTx ⟨chain⟩ ⟨1, 5⟩ (payment 0 100) (funded 0)).1.ledger d).balance x ≠
        ((funded 0).ledger d).balance x →
      (executeTx ⟨chain⟩ ⟨1, 5⟩ (payment 0 100) (funded 0)).2.receipt.names x := by
  have hcharged : rejects ⟨chain⟩ ⟨1, 5⟩ (payment 0 100) (funded 0) = false := by decide +kernel
  refine ⟨hcharged, (executeTx_moves_within_history_iff ⟨chain⟩ ⟨1, 5⟩ (payment 0 100) (funded 0) hcharged).2
    (.inr fun x d _ _ hx => ?_)⟩
  have hsender : x ≠ addressOf 1 := by
    rintro rfl
    exact hx (mem_sortDedup.2 (.head _))
  have hfee : feePaidBy (payment 0 100) x d = 0 := if_neg fun h => hsender h.1
  rw [hfee]
  exact paidTo_eq_zero (by decide +kernel) _

end Sample

end AfroLink
