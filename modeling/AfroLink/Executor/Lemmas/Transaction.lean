import AfroLink.Executor.Lemmas.Ledger

/-!
# What a transaction does to the store

A transaction is turned away with the store untouched, or pays its fee and is settled: its messages are kept
or dropped together, and the account records of those it names are moved on.
-/

namespace AfroLink

def TxReceipt.names (r : TxReceipt) (a : Address) : Prop := a ∈ r.touched.map (·.address)

instance {r : TxReceipt} {a : Address} : Decidable (r.names a) := inferInstanceAs (Decidable (a ∈ r.touched.map (·.address)))

/-! ## Account records -/

theorem Account.individual_decodes (a : Address) : (Account.individual a).decodeError = none := by
  rfl

@[simp] theorem Account.decodeError_incrementNonce (a : Account) : a.incrementNonce.decodeError = a.decodeError := rfl

@[simp] theorem Account.decodeError_pointAt (a : Account) (p : TxPointer) :
    (Exec.pointAt a p).decodeError = a.decodeError := rfl

namespace Exec

variable {s : Store} {a b : Address} {pointer : TxPointer}

theorem readOrFresh_decodes (s : Store) (a : Address) : (readOrFresh s a).decodeError = none := by
  unfold readOrFresh
  split
  · rename_i acc h
    exact (Store.getDecoded_eq_some.1 h).2
  · exact Account.individual_decodes a

theorem readOrFresh_of_getDecoded {v : Option Account} (h : s.getDecoded (.account a) = .ok v) :
    readOrFresh s a = v.getD (Account.individual a) := by
  unfold readOrFresh
  rw [h]
  cases v <;> rfl

theorem readOrFresh_set {acc : Account} (h : acc.decodeError = none) :
    readOrFresh (s.set (.account a) acc) a = acc := by
  have : (s.set (.account a) acc).getDecoded (.account a) = .ok (some acc) :=
    Store.getDecoded_eq_some.2 ⟨Store.set_self, h⟩
  simp [readOrFresh, this]

variable {s' s : Store} {l : List Address} {t : Transaction} {e : Executor} {d : Denom}

theorem readOrFresh_congr (h : s' (.account a) = s (.account a)) : readOrFresh s' a = readOrFresh s a := by
  unfold readOrFresh
  rw [Store.getDecoded_congr h]

/-! ## Bookkeeping -/

theorem touchAll_of_not_mem {k : StoreKey} (h : ∀ a ∈ l, k ≠ .account a) : (touchAll pointer l s).1 k = s k := by
  induction l generalizing s with
  | nil => rfl
  | cons b rest ih =>
    simp only [touchAll, moveHistoryPointer]
    rw [ih fun a ha => h a (.tail _ ha)]
    exact Store.set_of_ne (h b (.head _))

theorem touchAll_of_mem (h : a ∈ l) :
    (touchAll pointer l s).1 (.account a) = some (.value (pointAt (readOrFresh s a) pointer)) := by
  induction l generalizing s with
  | nil => cases h
  | cons b rest ih =>
    simp only [touchAll, moveHistoryPointer]
    by_cases hr : a ∈ rest
    · rw [ih hr]
      -- a second visit reads back the record the first one left
      by_cases hab : a = b
      · subst hab
        rw [readOrFresh_set ((Account.decodeError_pointAt _ _).trans (readOrFresh_decodes s a))]
        rfl
      · rw [readOrFresh_congr (Store.set_of_ne (by simpa using hab))]
    · obtain rfl : a = b := by simpa [hr] using h
      rw [touchAll_of_not_mem fun c hc => by rintro ⟨⟩; exact hr hc]
      exact Store.set_self

theorem touchAll_addresses : (touchAll pointer l s).2.map (·.address) = l := by
  induction l generalizing s with
  | nil => rfl
  | cons b rest ih => simp [touchAll, moveHistoryPointer, ih]

theorem touchAll_move (debtor : Address → Denom → Prop) (l : List Address) (s : Store) :
    LedgerMove debtor s (touchAll pointer l s).1 := by
  induction l generalizing s with
  | nil => exact LedgerMove.refl s
  | cons b rest ih =>
    refine LedgerMove.trans ?_ (ih _)
    simp

theorem bumpNonce_move (debtor : Address → Denom → Prop) (s : Store) (a : Address) :
    LedgerMove debtor s (bumpNonce s a) := by
  simp [bumpNonce]

/-! ## The checks before the fee -/

variable [Crypto]

/-- What has been established of a transaction when its fee is taken. -/
structure Checked (e : Executor) (ctx : BlockContext) (t : Transaction) (s : Store) : Prop where
  stateless : t.verifyStateless e.chainId ctx.height = .ok ()
  sender : ∃ v, s.getDecoded (.account t.body.sender) = .ok v ∧
    (v.getD (Account.individual t.body.sender)).authorises t.signingKeys = true ∧
    (v.getD (Account.individual t.body.sender)).nonce = t.body.nonce
  sponsor : ∀ payer, t.body.fee.payer = some payer → ∃ v, s.getDecoded (.account payer) = .ok v ∧
    (v.getD (Account.individual payer)).authorises t.sponsorKeys = true

theorem wp_checkTx (e : Executor) (ctx : BlockContext) (t : Transaction) (s : Store) :
    wp (checkTx e ctx t)
      (fun payer s' => s' = s ∧ payer = t.body.fee.payerOr t.body.sender ∧ Checked e ctx t s)
      (fun _ s' => s' = s) s := by
  simp [checkTx, loadAccount, acceptsAsFee, Bank.issuer]
  intro _ hst v hv hauth hnonce
  have hsender := fun hsp => Checked.mk hst ⟨v, hv, hauth, hnonce⟩ hsp
  refine ⟨fun hs w hw hsp => ?_, fun hs => ?_⟩
  · have hc : Checked e ctx t s := hsender fun payer hp => by
      rw [Fee.payerOr, hp] at hw hsp
      exact ⟨w, hw, hsp⟩
    exact ⟨fun _ => hc, fun _ _ _ _ => hc⟩
  · have hc : Checked e ctx t s := hsender fun payer hp => by simp [Fee.isSponsored, hp] at hs
    exact ⟨fun _ => hc, fun _ _ _ _ => hc⟩

theorem Checked.fee_ne_zero {ctx : BlockContext} (h : Checked e ctx t s) : t.body.fee.amount.isZero = false := by
  by_contra hz
  have hz : t.body.fee.amount.isZero = true := by simpa using hz
  have hst := h.stateless
  simp only [Transaction.verifyStateless, TxBody.validateBasic, hz, if_true] at hst
  split_ifs at hst <;> cases hst

/-! ## Messages in sequence -/

variable {ctx : BlockContext} {sender : Address}

theorem applyMessages_move {ms : List Message} (h : Runs (applyMessages ctx sender ms) s () s') :
    LedgerMove (fun _ _ => True) s s' := by
  induction ms generalizing s with
  | nil =>
    obtain ⟨-, rfl⟩ := Runs.pure_iff.1 h
    exact .refl s
  | cons m rest ih =>
    obtain ⟨u, s₁, hm, hrest⟩ := Runs.bind_iff.1 h
    exact ((applyMessage_move hm).mono fun _ _ _ => trivial).trans (ih hrest)

theorem applyMessages_debit {ms : List Message} (h : Runs (applyMessages ctx sender ms) s () s')
    {x : Address} (hx : (s'.ledger d).balance x < (s.ledger d).balance x) :
    ∃ before m after s₁, ms = before ++ m :: after ∧ Runs (applyMessages ctx sender before) s () s₁ ∧
      m.MayDebit sender s₁ x := by
  induction ms generalizing s with
  | nil =>
    obtain ⟨-, rfl⟩ := Runs.pure_iff.1 h
    exact absurd hx (lt_irrefl _)
  | cons m rest ih =>
    obtain ⟨u, s₁, hm, hrest⟩ := Runs.bind_iff.1 h
    by_cases h₁ : (s₁.ledger d).balance x < (s.ledger d).balance x
    · exact ⟨[], m, rest, s, rfl, Runs.pure_iff.2 ⟨rfl, rfl⟩, (applyMessage_move hm d).debits x h₁⟩
    · obtain ⟨before, m', after, s₂, rfl, hb, hmay⟩ := ih hrest (by omega)
      exact ⟨m :: before, m', after, s₂, rfl, Runs.bind_iff.2 ⟨u, s₁, hm, hb⟩, hmay⟩

/-! ## Transactions and blocks -/

omit [Crypto] in
theorem wp_bankTransfer (src dst : Address) (d : Denom) (x : Amount) (s : Store) :
    wp (bankTransfer src dst d x) (fun _ s' => Bank.Paid src dst d x s s') (fun _ s' => s' = s) s :=
  wp.mapErr_iff.2 (Bank.wp_transfer src dst d x s)

omit [Crypto] in
theorem paid_of_runs {src dst : Address} {x : Amount}
    (h : Runs (bankTransfer src dst d x) s () s') : Bank.Paid src dst d x s s' :=
  wp.iff_runs.1 ((wp_bankTransfer src dst d x s).mono (fun _ _ => id) fun _ _ _ => trivial) () s' h

/-- The transaction is turned away: a check fails, or the fee cannot be taken. -/
def rejects (e : Executor) (ctx : BlockContext) (t : Transaction) (s : Store) : Bool :=
  match checkTx e ctx t s with
  | .error _ _ => true
  | .ok payer s =>
    match bankTransfer payer feeCollectorAddress t.body.fee.denom t.body.fee.amount s with
    | .error _ _ => true
    | .ok _ _ => false

/-- The store the messages of a transaction are applied to. -/
def afterFee (t : Transaction) (s : Store) : Store :=
  match bankTransfer (t.body.fee.payerOr t.body.sender) feeCollectorAddress t.body.fee.denom t.body.fee.amount s with
  | .ok _ s₁ => s₁
  | .error _ _ => s

theorem afterFee_of_runs {s₁ : Store} (h : Runs (bankTransfer (t.body.fee.payerOr t.body.sender)
    feeCollectorAddress t.body.fee.denom t.body.fee.amount) s () s₁) : afterFee t s = s₁ := by
  unfold Runs at h
  simp [afterFee, h]

def messagesFail (ctx : BlockContext) (t : Transaction) (s : Store) : Bool :=
  match applyMessages ctx t.body.sender t.body.messages s with
  | .error _ _ => true
  | .ok _ _ => false

/-- The fee is taken, and then one of the messages fails. -/
def failsAfterFee (e : Executor) (ctx : BlockContext) (t : Transaction) (s : Store) : Bool :=
  match checkTx e ctx t s with
  | .error _ _ => false
  | .ok payer s =>
    match bankTransfer payer feeCollectorAddress t.body.fee.denom t.body.fee.amount s with
    | .error _ _ => false
    | .ok _ s => messagesFail ctx t s

theorem executeTx_cases (e : Executor) (ctx : BlockContext) (t : Transaction) (s : Store) :
    (∃ err, executeTx e ctx t s = (s, .rejected t.id err) ∧ failsAfterFee e ctx t s = false ∧
      rejects e ctx t s = true) ∨
    ∃ s₁, Checked e ctx t s ∧ rejects e ctx t s = false ∧ failsAfterFee e ctx t s = messagesFail ctx t s₁ ∧
      Runs (bankTransfer (t.body.fee.payerOr t.body.sender) feeCollectorAddress t.body.fee.denom
        t.body.fee.amount) s () s₁ ∧
      executeTx e ctx t s = settle ctx t (t.body.fee.payerOr t.body.sender) s₁ := by
  have hcheck := wp_checkTx e ctx t s
  unfold executeTx rejects failsAfterFee
  unfold wp at hcheck
  cases hc : checkTx e ctx t s with
  | error err s' =>
    rw [hc] at hcheck
    exact .inl ⟨err, by rw [hcheck], rfl, rfl⟩
  | ok payer s' =>
    rw [hc] at hcheck
    obtain ⟨rfl, rfl, hchecked⟩ := hcheck
    simp only
    have hpay := wp_bankTransfer (t.body.fee.payerOr t.body.sender) feeCollectorAddress t.body.fee.denom
      t.body.fee.amount s'
    unfold wp at hpay
    cases hb : bankTransfer (t.body.fee.payerOr t.body.sender) feeCollectorAddress t.body.fee.denom
        t.body.fee.amount s' with
    | ok u s₁ => exact .inr ⟨s₁, hchecked, rfl, rfl, hb, rfl⟩
    | error err s₁ =>
      rw [hb] at hpay
      exact .inl ⟨err, by simp [hchecked.fee_ne_zero, hpay], rfl, rfl⟩

theorem settle_of_messagesFail {payer : Address} (h : messagesFail ctx t s = true) : (settle ctx t payer s).1 =
      (touchAll ⟨t.id, ctx.height⟩ (sortDedup [t.body.sender, payer]) (bumpNonce s t.body.sender)).1 := by
  unfold messagesFail at h
  unfold settle
  cases hm : applyMessages ctx t.body.sender t.body.messages s with
  | ok u sandbox => simp [hm] at h
  | error err s' => rfl

theorem settle_move (ctx : BlockContext) (t : Transaction) (payer : Address) (s : Store) :
    LedgerMove (fun _ _ => True) s (settle ctx t payer s).1 := by
  unfold settle
  cases h : applyMessages ctx t.body.sender t.body.messages s with
  | ok u sandbox =>
    exact (applyMessages_move h).trans ((bumpNonce_move _ sandbox _).trans (touchAll_move _ _ _))
  | error err s' => exact (bumpNonce_move _ s _).trans (touchAll_move _ _ _)

theorem settle_debit {payer x : Address} (hx : ((settle ctx t payer s).1.ledger d).balance x < (s.ledger d).balance x) :
    ∃ before m after s₁, t.body.messages = before ++ m :: after ∧
      Runs (applyMessages ctx t.body.sender before) s () s₁ ∧ m.MayDebit t.body.sender s₁ x := by
  have hbooks : ∀ l s', ¬ ((touchAll ⟨t.id, ctx.height⟩ l (bumpNonce s' t.body.sender)).1.ledger d).balance x <
      (s'.ledger d).balance x := fun l s' =>
    (((bumpNonce_move (fun _ _ => False) s' _).trans (touchAll_move _ l _)) d).debits x
  unfold settle at hx
  cases h : applyMessages ctx t.body.sender t.body.messages s with
  | error err s' =>
    rw [h] at hx
    exact absurd hx (hbooks _ s)
  | ok u sandbox =>
    rw [h] at hx
    have := hbooks t.touchedAddresses sandbox
    simp only at hx
    exact applyMessages_debit (d := d) h (by omega)

theorem executeTx_move (e : Executor) (ctx : BlockContext) (t : Transaction) (s : Store) :
    LedgerMove (fun _ _ => True) s (executeTx e ctx t s).1 := by
  rcases executeTx_cases e ctx t s with ⟨err, h, -⟩ | ⟨s₁, -, -, -, hpay, h⟩
  · rw [h]
    exact .refl s
  · rw [h]
    exact ((bankTransfer_move trivial).run hpay).trans (settle_move ctx t _ s₁)

theorem executeTxs_move (e : Executor) (ctx : BlockContext) (ts : List Transaction) (s : Store) :
    LedgerMove (fun _ _ => True) s (executeTxs e ctx ts s).1 := by
  induction ts generalizing s with
  | nil => exact .refl s
  | cons t rest ih => exact (executeTx_move e ctx t s).trans (ih _)

/-! ## Transactions that go through -/

theorem verifyStateless_signed {b : TxBody} {sig : TxSignature} {height : Height}
    (hbasic : b.validateBasic = .ok ()) (hpayer : b.fee.payer = none) (hheight : height ≤ b.validUntil)
    (h : Transaction.checkSignatureList b.signDoc [sig] = .ok ()) :
    Transaction.verifyStateless { body := b, signatures := [sig], sponsorSignatures := [] } b.chainId height = .ok () := by
  have hnone : Transaction.checkSignatureList b.signDoc [] = .ok () := by simp [Transaction.checkSignatureList]
  have huntil : ¬ height > b.validUntil := not_lt.2 hheight
  simp [Transaction.verifyStateless, Transaction.checkSignatures, hbasic, huntil, h, hnone, Fee.isSponsored, hpayer, MAX_SIGNATURES,
    MAX_SIGNERS, bind, Except.bind]

theorem checkTx_unsponsored {r : Account} (hverify : t.verifyStateless e.chainId ctx.height = .ok ())
    (hread : s.getDecoded (.account t.body.sender) = .ok (some r)) (hauth : r.authorises t.signingKeys = true)
    (hnonce : r.nonce = t.body.nonce) (hpayer : t.body.fee.payer = none) (hdenom : t.body.fee.denom = .native) :
    Runs (checkTx e ctx t) s t.body.sender s := by
  have hnative : t.body.fee.denom.isNative = true := by
    rw [hdenom]
    decide
  simp [checkTx, hverify, loadAccount, hread, hauth, hnonce, Fee.payerOr, Fee.isSponsored, hpayer, acceptsAsFee, hnative]

omit [Crypto] in
theorem bankTransfer_runs {src dst : Address} {x v w y z : Amount} (hx : x.isZero = false)
    (hsrc : s (.frozen d src) = none) (hdst : s (.frozen d dst) = none) (hne : src ≠ dst)
    (hv : s (.balance src d) = some (.value v)) (hw : s (.balance dst d) = some (.value w))
    (hy : v.checkedSub x = .ok y) (hz : w.checkedAdd x = .ok z) :
    Runs (bankTransfer src dst d x) s () ((s.withBalance src d y).withBalance dst d z) := by
  have hv' : s.getDecoded (.balance src d) = .ok (some v) := Store.getDecoded_eq_some.2 ⟨hv, rfl⟩
  have hw' : s.getDecoded (.balance dst d) = .ok (some w) := Store.getDecoded_eq_some.2 ⟨hw, rfl⟩
  have hwp : wp (Bank.transfer src dst d x) (fun _ s' => s' = (s.withBalance src d y).withBalance dst d z)
      (fun _ _ => False) s := by
    simp [Bank.transfer, Bank.isFrozen, Bank.balance, hx, hsrc, hdst, hne, hv', hw', hy, hz]
  rw [bankTransfer, Runs.mapErr_iff]
  unfold wp at hwp
  unfold Runs
  split at hwp
  · rename_i heq
    rw [heq, hwp]
  · exact hwp.elim

theorem executeTx_of_runs {s₁ s₂ : Store} (hcheck : Runs (checkTx e ctx t) s t.body.sender s)
    (hpay : Runs (bankTransfer t.body.sender feeCollectorAddress t.body.fee.denom t.body.fee.amount) s () s₁)
    (hrun : Runs (applyMessages ctx t.body.sender t.body.messages) s₁ () s₂) : rejects e ctx t s = false ∧
      (executeTx e ctx t s).1 = (touchAll ⟨t.id, ctx.height⟩ t.touchedAddresses (bumpNonce s₂ t.body.sender)).1 := by
  unfold Runs at hcheck hpay hrun
  unfold rejects executeTx settle
  rw [hcheck]
  simp only [hpay, hrun, and_self]

end Exec

end AfroLink
