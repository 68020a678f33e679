import AfroLink.Base.Ledger
import AfroLink.Bank.Bank
import AfroLink.State.Lemmas.Footprint

/-!
# The bank as a ledger

The balance and supply cells of a store, one `Ledger` a denomination, and what each bank operation does to
them.
-/

namespace AfroLink

/-- The amount in a cell; nothing readable counts as nothing. -/
def Cell.amount : Option (Cell Amount) → ℕ
  | some (.value v) => v.val
  | _ => 0

theorem Cell.amount_lt (c : Option (Cell Amount)) : Cell.amount c < 2 ^ 128 := by
  unfold amount
  split
  · rename_i v
    exact v.isLt
  · decide

def Store.ledger (s : Store) (d : Denom) : Ledger Address where
  balance a := Cell.amount (s (.balance a d))
  supply := Cell.amount (s (.supply d))

/-- Every denomination moves as a ledger does, taking only from debtors. -/
def LedgerMove (debtor : Address → Denom → Prop) (s s' : Store) : Prop :=
  ∀ d, Ledger.Move (debtor · d) (s.ledger d) (s'.ledger d)

@[reducible] def StoreKey.isMoney : StoreKey → Bool
  | balance .. | supply _ => true
  | account _ | issuer _ | frozen .. | aliasName _ | aliasSkeleton _ | aliasReverse _ | contact _ | attestor _
  | bond _ | unbonding _ | bondIndex | params | council | proposal _ | proposalIndex => false

attribute [simp] StoreKey.isMoney

section

variable {debtor debtor' : Address → Denom → Prop} {s s' s'' : Store} {k : StoreKey}

@[simp] theorem LedgerMove.refl (s : Store) : LedgerMove debtor s s := fun d => .refl (s.ledger d)

theorem LedgerMove.trans (h : LedgerMove debtor s s') (h' : LedgerMove debtor s' s'') : LedgerMove debtor s s'' :=
  fun d => (h d).trans (h' d)

instance : IsTrans Store (LedgerMove debtor) := ⟨fun _ _ _ => LedgerMove.trans⟩

theorem LedgerMove.mono (h : LedgerMove debtor s s') (hd : ∀ a d, debtor a d → debtor' a d) :
    LedgerMove debtor' s s' := fun d => (h d).mono fun a => hd a d

theorem Store.ledger_congr (h : ∀ k : StoreKey, k.isMoney = true → s' k = s k) (d : Denom) :
    s'.ledger d = s.ledger d := by
  simp only [ledger, h (.balance _ d) rfl, h (.supply d) rfl]

@[simp] theorem LedgerMove.set_right {v : k.Value} (hk : k.isMoney = false) :
    LedgerMove debtor s (s'.set k v) ↔ LedgerMove debtor s s' := by
  have h : ∀ d, (s'.set k v).ledger d = s'.ledger d := Store.ledger_congr fun k' hm => Store.set_of_ne (by
    rintro rfl
    exact absurd (hk.symm.trans hm) Bool.false_ne_true)
  simp only [LedgerMove, h]

@[simp] theorem LedgerMove.delete_right (hk : k.isMoney = false) :
    LedgerMove debtor s (s'.delete k) ↔ LedgerMove debtor s s' := by
  have h : ∀ d, (s'.delete k).ledger d = s'.ledger d := Store.ledger_congr fun k' hm => Store.delete_of_ne (by
    rintro rfl
    exact absurd (hk.symm.trans hm) Bool.false_ne_true)
  simp only [LedgerMove, h]

end

variable {F : StoreKey → Prop} {debtor : Address → Denom → Prop}

theorem Writes.move {C : Prop} {s s' : Store}
    (h : Writes F C s s') (hF : ∀ k, F k → k.isMoney = false) : LedgerMove debtor s s' := by
  have hsame : ∀ d, s'.ledger d = s.ledger d := Store.ledger_congr fun k hk => h.frame k fun hf => by
    simp [hF k hf] at hk
  intro d
  rw [hsame]
  exact .refl _

theorem Keeps.move {ε α : Type} [StateFault ε]
    {P : α → Prop} {x : StoreM ε α} (h : ∀ s, Keeps F False P x s) (hF : ∀ k, F k → k.isMoney = false) :
    Preserves (LedgerMove debtor) x :=
  fun s => wp.mono (h s) (fun _ _ h' => h'.1.move hF) fun _ _ _ => trivial

/-! ## Money cells -/

namespace Store

variable {s : Store} {a b : Address} {d d' : Denom} {x : Amount}

/-- What `write_balance` leaves: a zero is an absent cell. -/
def withBalance (s : Store) (a : Address) (d : Denom) (x : Amount) : Store :=
  if x.isZero then s.delete (.balance a d) else s.set (.balance a d) x

def withSupply (s : Store) (d : Denom) (x : Amount) : Store :=
  if x.isZero then s.delete (.supply d) else s.set (.supply d) x

theorem withBalance_apply (k : StoreKey) (hk : k ≠ .balance a d) : s.withBalance a d x k = s k := by
  unfold withBalance
  split <;> simp [hk]

theorem withSupply_apply (k : StoreKey) (hk : k ≠ .supply d) : s.withSupply d x k = s k := by
  unfold withSupply
  split <;> simp [hk]

theorem withBalance_self (hx : 0 < x.val) : s.withBalance a d x (.balance a d) = some (.value x) := by
  have hzero : x.isZero = false := by
    unfold Amount.isZero
    exact beq_false_of_ne (by omega)
  unfold withBalance
  rw [hzero]
  exact set_self

theorem amount_withBalance : Cell.amount (s.withBalance a d x (.balance a d)) = x.val := by
  unfold withBalance
  split
  · simp_all [Cell.amount, Amount.isZero]
  · simp [Cell.amount]

theorem amount_withSupply : Cell.amount (s.withSupply d x (.supply d)) = x.val := by
  unfold withSupply
  split
  · simp_all [Cell.amount, Amount.isZero]
  · simp [Cell.amount]

theorem ledger_withBalance :
    (s.withBalance a d x).ledger d = ⟨Function.update (s.ledger d).balance a x.val, (s.ledger d).supply⟩ := by
  have hb : ((s.withBalance a d x).ledger d).balance = Function.update (s.ledger d).balance a x.val := by
    funext b
    by_cases hb : b = a
    · subst hb
      simpa [ledger] using amount_withBalance
    · simp [ledger, hb, withBalance_apply]
  rw [← hb]
  simp [ledger, withBalance_apply]

theorem ledger_withBalance_of_ne (h : d' ≠ d) : (s.withBalance a d x).ledger d' = s.ledger d' := by
  simp [ledger, withBalance_apply, h]

theorem ledger_withSupply : (s.withSupply d x).ledger d = ⟨(s.ledger d).balance, x.val⟩ := by
  simp [ledger, withSupply_apply, amount_withSupply]

theorem ledger_withSupply_of_ne (h : d' ≠ d) : (s.withSupply d x).ledger d' = s.ledger d' := by
  simp [ledger, withSupply_apply, h]

theorem balance_of_getDecoded {v : Option Amount} (h : s.getDecoded (.balance a d) = .ok v) :
    (s.ledger d).balance a = (v.getD 0).val := by
  cases v with
  | none => simp [ledger, getDecoded_eq_none.1 h, Cell.amount]
  | some v => simp [ledger, (getDecoded_eq_some.1 h).1, Cell.amount]

theorem supply_of_getDecoded {v : Option Amount} (h : s.getDecoded (.supply d) = .ok v) :
    (s.ledger d).supply = (v.getD 0).val := by
  cases v with
  | none => simp [ledger, getDecoded_eq_none.1 h, Cell.amount]
  | some v => simp [ledger, (getDecoded_eq_some.1 h).1, Cell.amount]

end Store

namespace Bank

variable {debtor : Address → Denom → Prop} {s : Store} {E : BankError → Store → Prop}

variable {Q : Unit → Store → Prop} {x : Amount} {d : Denom} {s' : Store} {src dst : Address} {v w : Option Amount}

@[simp] theorem wp_writeBalance {a : Address} : wp (writeBalance a d x) Q E s ↔ Q () (s.withBalance a d x) := by
  unfold writeBalance Store.withBalance
  split <;> rfl

@[simp] theorem wp_writeSupply : wp (writeSupply d x) Q E s ↔ Q () (s.withSupply d x) := by
  unfold writeSupply Store.withSupply
  split <;> rfl

@[simp] theorem wp_requireIssuer {Q : Issuer → Store → Prop} : wp (requireIssuer d) Q (fun _ _ => True) s ↔
      (d.isNative = false → ∀ i, s.getDecoded (.issuer d) = .ok (some i) → Q i s) := by
  simp only [requireIssuer, issuer]
  simp
  constructor
  · intro h hd i hi
    exact h hd (some i) hi
  · intro h hd v hv
    cases v with
    | none => trivial
    | some i => exact h hd i hv

theorem requireIssuer_ne_native {i : Issuer} (h : Runs (requireIssuer d) s i s') : d ≠ .native := by
  rintro rfl
  unfold requireIssuer at h
  exact (Runs.guard_iff.1 h).1 (by decide)

/-- What a payment does: nothing to a payer paying itself, else two writes that keep the sum. -/
inductive Paid (src dst : Address) (d : Denom) (x : Amount) (s : Store) : Store → Prop where
  | self (h : src = dst) : Paid src dst d x s s
  | moved (y z : Amount) (hne : src ≠ dst) (hy : y.val + x.val = (s.ledger d).balance src)
      (hz : z.val = (s.ledger d).balance dst + x.val) :
      Paid src dst d x s ((s.withBalance src d y).withBalance dst d z)

theorem Paid.move (h : Paid src dst d x s s') (hs : debtor src d) : LedgerMove debtor s s' := by
  cases h with
  | self h => exact .refl s
  | moved y z hne hy hz =>
    intro d'
    by_cases hd : d' = d
    · subst hd
      refine .pay (x := x.val) hne ?_ ?_ ?_ hs
      · simp only [Store.ledger_withBalance]
        congr 2
        omega
      · omega
      · simp only [Store.ledger_withBalance]
    · rw [Store.ledger_withBalance_of_ne hd, Store.ledger_withBalance_of_ne hd]
      exact .refl _

theorem Paid.frame (h : Paid src dst d x s s') {k : StoreKey} (hk : k.isMoney = false) : s' k = s k := by
  cases h with
  | self h => rfl
  | moved y z hne hy hz =>
    have hne : ∀ a, k ≠ .balance a d := by
      rintro a rfl
      cases hk
    rw [Store.withBalance_apply k (hne dst), Store.withBalance_apply k (hne src)]

theorem issue_move {y z : Amount} (hv : s.getDecoded (.balance dst d) = .ok v) (hw : s.getDecoded (.supply d) = .ok w)
    (hy : (v.getD 0).checkedAdd x = .ok y) (hz : (w.getD 0).checkedAdd x = .ok z) :
    LedgerMove debtor s ((s.withBalance dst d y).withSupply d z) := by
  intro d'
  by_cases hd : d' = d
  · subst hd
    have hdst := Store.balance_of_getDecoded hv
    have hsup := Store.supply_of_getDecoded hw
    have hadd := Amount.checkedAdd_eq_ok.1 hy
    have hadd' := Amount.checkedAdd_eq_ok.1 hz
    refine .issue (i := dst) (x := x.val) ?_ ?_
    · simp only [Store.ledger_withSupply, Store.ledger_withBalance]
      congr 1
      omega
    · simp only [Store.ledger_withSupply]
      omega
  · rw [Store.ledger_withSupply_of_ne hd, Store.ledger_withBalance_of_ne hd]
    exact .refl _

theorem destroy_move {y z : Amount} (hs : debtor src d)
    (hv : s.getDecoded (.balance src d) = .ok v) (hw : s.getDecoded (.supply d) = .ok w)
    (hy : (v.getD 0).checkedSub x = .ok y) (hz : (w.getD 0).checkedSub x = .ok z) :
    LedgerMove debtor s ((s.withBalance src d y).withSupply d z) := by
  intro d'
  by_cases hd : d' = d
  · subst hd
    have hsrc := Store.balance_of_getDecoded hv
    have hsup := Store.supply_of_getDecoded hw
    have hsub := Amount.checkedSub_eq_ok.1 hy
    have hsub' := Amount.checkedSub_eq_ok.1 hz
    refine .destroy (i := src) (x := x.val) ?_ ?_ ?_ hs
    · simp only [Store.ledger_withSupply, Store.ledger_withBalance]
      congr 1
      omega
    · omega
    · simp only [Store.ledger_withSupply]
      omega
  · rw [Store.ledger_withSupply_of_ne hd, Store.ledger_withBalance_of_ne hd]
    exact .refl _

theorem wp_transfer (src dst : Address) (d : Denom) (x : Amount) (s : Store) :
    wp (transfer src dst d x) (fun _ s' => Paid src dst d x s s') (fun _ s' => s' = s) s := by
  simp only [transfer, isFrozen, balance]
  simp
  intro _ _ _
  refine ⟨fun h _ _ _ => .self h, fun hne v hv w hw y hy z hz => ?_⟩
  have hsrc := Store.balance_of_getDecoded hv
  have hdst := Store.balance_of_getDecoded hw
  have hsub := Amount.checkedSub_eq_ok.1 hy
  have hadd := Amount.checkedAdd_eq_ok.1 hz
  exact .moved y z hne (by omega) (by omega)

theorem transfer_succeeds (hs : s.Whole) (hx : x.isZero = false)
    (hsrc : s (.frozen d src) = none) (hdst : s (.frozen d dst) = none) (hle : x.val ≤ (s.ledger d).balance src)
    (hbalanced : (s.ledger d).Balanced) : wp (transfer src dst d x) (fun _ _ => True) (fun _ _ => False) s := by
  obtain ⟨v, hv, -⟩ := hs.getDecoded (k := .balance src d) fun _ => rfl
  obtain ⟨w, hw, -⟩ := hs.getDecoded (k := .balance dst d) fun _ => rfl
  have hsupply : (s.ledger d).supply < 2 ^ 128 := Cell.amount_lt _
  have hsrcval := Store.balance_of_getDecoded hv
  have hdstval := Store.balance_of_getDecoded hw
  by_cases hne : src = dst
  · subst hne
    have hge : x ≤ v.getD 0 := by
      rw [Fin.le_def]
      omega
    simpa [transfer, isFrozen, balance, hx, hsrc, hv] using hge
  · have hsum := (s.ledger d).balance_add_le_held hne
    unfold Ledger.Balanced at hbalanced
    obtain ⟨y, hy⟩ : ∃ y, (v.getD 0).checkedSub x = .ok y :=
      ⟨⟨(v.getD 0).val - x.val, by omega⟩, Amount.checkedSub_eq_ok.2 ⟨by omega, rfl⟩⟩
    obtain ⟨z, hz⟩ : ∃ z, (w.getD 0).checkedAdd x = .ok z :=
      ⟨⟨(w.getD 0).val + x.val, by omega⟩, Amount.checkedAdd_eq_ok.2 rfl⟩
    simp [transfer, isFrozen, balance, hx, hsrc, hdst, hne, hv, hw, hy, hz]

theorem transfer_move (hs : debtor src d) : Preserves (LedgerMove debtor) (transfer src dst d x) :=
  fun s => (wp_transfer src dst d x s).mono (fun _ _ h => h.move hs) fun _ _ _ => trivial

theorem mint_move {minter : Address} : Preserves (LedgerMove debtor) (mint minter dst d x) := by
  intro s
  simp [mint, isFrozen, totalSupply, balance, writeIssuer]
  intro _ _ i _ _ _ _ w hw z hz _ v hv y hy
  split
  · trivial
  · simpa using issue_move hv hw hy hz

theorem burn_move {minter : Address} (hs : debtor minter d) : Preserves (LedgerMove debtor) (burn minter d x) := by
  intro s
  simp [burn, isFrozen, totalSupply, balance]
  intro _ _ _ _ _ _ v hv y hy w hw z hz
  exact destroy_move hs hv hw hy hz

theorem slashNative_move (hs : debtor src .native) : Preserves (LedgerMove debtor) (slashNative src x) := by
  intro s
  simp [slashNative, totalSupply, balance]
  intro _ v hv y hy w hw z hz
  exact destroy_move hs hv hw hy hz

end Bank

end AfroLink
