import AfroLink.Bank.Lemmas.Ledger
import AfroLink.Staking.Staking

/-!
# The books of the staking module

The bonds and the unbonding queues as the store holds them, and what each operation that succeeds does to them.
-/

namespace AfroLink

/-! ## Bonds and queues in the store -/

namespace Store

def bondAt (s : Store) (operator : Address) : Option Bond :=
  match s (.bond operator) with
  | some (.value b) => some b
  | _ => none

/-- The queue in the cell of an operator, whether or not it is short enough to be read back. -/
def queueAt (s : Store) (operator : Address) : List Unbonding :=
  match s (.unbonding operator) with
  | some (.value queue) => queue
  | _ => []

/-- What `write_queue` leaves: an empty queue is an absent cell. -/
def withQueue (s : Store) (operator : Address) (queue : List Unbonding) : Store :=
  if queue.isEmpty then s.delete (.unbonding operator) else s.set (.unbonding operator) queue

variable {s s' : Store} {operator : Address}

theorem bondAt_of_read {v : Option Bond} (h : s.getDecoded (.bond operator) = .ok v) : s.bondAt operator = v := by
  unfold bondAt
  cases v with
  | none => rw [getDecoded_eq_none.1 h]
  | some b => rw [(getDecoded_eq_some.1 h).1]

variable {b : Bond} {k : StoreKey} {queue : List Unbonding}

theorem read_of_bondAt (h : s.bondAt operator = some b) : s.getDecoded (.bond operator) = .ok (some b) := by
  unfold bondAt at h
  split at h
  · rename_i b' hb
    cases h
    exact getDecoded_eq_some.2 ⟨hb, rfl⟩
  · cases h

theorem queueAt_of_read {v : Option (List Unbonding)} (h : s.getDecoded (.unbonding operator) = .ok v) :
    s.queueAt operator = v.getD [] := by
  unfold queueAt
  cases v with
  | none => rw [getDecoded_eq_none.1 h]; rfl
  | some queue => rw [(getDecoded_eq_some.1 h).1]; rfl

theorem bondAt_congr (h : s' (.bond operator) = s (.bond operator)) : s'.bondAt operator = s.bondAt operator := by
  simp only [bondAt, h]

theorem queueAt_congr (h : s' (.unbonding operator) = s (.unbonding operator)) :
    s'.queueAt operator = s.queueAt operator := by
  simp only [queueAt, h]

theorem bondAt_set : (s.set (.bond operator) b).bondAt = Function.update s.bondAt operator (some b) := by
  funext a
  by_cases ha : a = operator
  · subst ha
    simp [bondAt]
  · rw [Function.update_of_ne ha]
    exact bondAt_congr (set_of_ne (by simpa using ha))

theorem bondAt_set_of_ne {v : k.Value} (hk : ∀ a, .bond a ≠ k) : (s.set k v).bondAt = s.bondAt :=
  funext fun a => bondAt_congr (set_of_ne (hk a))

theorem queueAt_set_of_ne {v : k.Value} (hk : ∀ a, .unbonding a ≠ k) : (s.set k v).queueAt = s.queueAt :=
  funext fun a => queueAt_congr (set_of_ne (hk a))

theorem withQueue_apply (hk : k ≠ .unbonding operator) : s.withQueue operator queue k = s k := by
  unfold withQueue
  split
  · exact delete_of_ne hk
  · exact set_of_ne hk

theorem index_set_bond : s.set (.bond operator) b .bondIndex = s .bondIndex := set_of_ne nofun

theorem index_withQueue : s.withQueue operator queue .bondIndex = s .bondIndex :=
  withQueue_apply nofun

theorem bondAt_withQueue : (s.withQueue operator queue).bondAt = s.bondAt :=
  funext fun _ => bondAt_congr (withQueue_apply nofun)

theorem Whole.withQueue (h : s.Whole) : (s.withQueue operator queue).Whole := by
  unfold Store.withQueue
  split
  · exact h.delete
  · exact h.set

theorem queueAt_withQueue : (s.withQueue operator queue).queueAt = Function.update s.queueAt operator queue := by
  funext a
  by_cases ha : a = operator
  · subst ha
    rw [Function.update_self]
    unfold withQueue
    split
    · rename_i hempty
      simp [queueAt, List.isEmpty_iff.1 hempty]
    · simp [queueAt]
  · rw [Function.update_of_ne ha]
    exact queueAt_congr (withQueue_apply (by simpa using ha))

end Store

def queued (queue : List Unbonding) : ℕ := (queue.map fun e => e.amount.val).sum

@[simp] theorem queued_nil : queued [] = 0 := rfl

@[simp] theorem queued_cons (e : Unbonding) (queue : List Unbonding) :
    queued (e :: queue) = e.amount.val + queued queue := by
  simp [queued]

@[simp] theorem queued_append (queue later : List Unbonding) :
    queued (queue ++ later) = queued queue + queued later := by
  simp [queued]

theorem queued_filter_add (keep : Unbonding → Bool) (queue : List Unbonding) :
    queued (queue.filter keep) + queued (queue.filter fun e => !keep e) = queued queue := by
  induction queue with
  | nil => rfl
  | cons e rest ih =>
    cases h : keep e with
    | true => simp [h, ← ih, Nat.add_assoc]
    | false => simp [h, ← ih, Nat.add_left_comm]

/-! ## Slashing -/

namespace Staking

theorem fraction_le (x : Amount) : (fraction x SLASH_EQUIVOCATION_BPS).val ≤ x.val := by
  have hbps : SLASH_EQUIVOCATION_BPS.val = 500 := rfl
  simp only [fraction, Fin.saturatingMul, hbps]
  omega

def cut (x : Amount) : Amount :=
  ⟨x.val - (fraction x SLASH_EQUIVOCATION_BPS).val, Nat.lt_of_le_of_lt (Nat.sub_le ..) x.isLt⟩

theorem cut_add_fraction (x : Amount) : (cut x).val + (fraction x SLASH_EQUIVOCATION_BPS).val = x.val :=
  Nat.sub_add_cancel (fraction_le x)

theorem checkedSub_fraction (x : Amount) : x.checkedSub (fraction x SLASH_EQUIVOCATION_BPS) = .ok (cut x) :=
  Amount.checkedSub_eq_ok.2 ⟨fraction_le x, rfl⟩

/-- A queue entry after an infraction at `h`: cut if it was still bonded then. -/
def slashEntry (h : Height) (e : Unbonding) : Unbonding := if e.covers h then { e with amount := cut e.amount } else e

theorem slashEntry_amount_le (h : Height) (e : Unbonding) : (slashEntry h e).amount.val ≤ e.amount.val := by
  unfold slashEntry
  split
  · have := cut_add_fraction e.amount
    dsimp only
    omega
  · exact le_refl _

theorem queued_slash_le (h : Height) (queue : List Unbonding) : queued (queue.map (slashEntry h)) ≤ queued queue := by
  induction queue with
  | nil => exact le_refl _
  | cons e rest ih =>
    have := slashEntry_amount_le h e
    simp only [List.map_cons, queued_cons]
    omega

variable {queue : List Unbonding} {s s' : Store} {x : Amount} {src : Address}

theorem slashQueue_eq_ok {h : Height} {queue' : List Unbonding} {taken taken' : Amount} :
    slashQueue h queue taken = .ok (queue', taken') ↔
      queue' = queue.map (slashEntry h) ∧ taken'.val + queued queue' = taken.val + queued queue := by
  induction queue generalizing queue' taken taken' with
  | nil =>
    simp only [slashQueue, Except.ok.injEq, Prod.mk.injEq, List.map_nil, queued_nil, Nat.add_zero]
    constructor
    · rintro ⟨rfl, rfl⟩
      exact ⟨rfl, rfl⟩
    · rintro ⟨rfl, ht⟩
      exact ⟨rfl, Fin.ext (by simpa using ht.symm)⟩
  | cons e rest ih =>
    have hle := queued_slash_le h rest
    unfold slashQueue
    by_cases hc : e.covers h = true
    · have hcut := cut_add_fraction e.amount
      simp only [hc, Bool.not_true, Bool.false_eq_true, if_false, checkedSub_fraction, Except.bind_eq_ok, ih,
        Amount.checkedAdd_eq_ok, pure, Except.pure, Except.ok.injEq, Prod.mk.injEq, List.map_cons, slashEntry, if_true]
      constructor
      · rintro ⟨_, rfl, sum, hsum, ⟨rest', t⟩, ⟨rfl, ht⟩, rfl, rfl⟩
        refine ⟨rfl, ?_⟩
        simp only [queued_cons]
        simp only at ht
        omega
      · rintro ⟨rfl, ht⟩
        simp only [queued_cons] at ht
        have hbound := taken'.isLt
        refine ⟨_, rfl, ⟨taken.val + (fraction e.amount SLASH_EQUIVOCATION_BPS).val, ?_⟩, rfl,
          ⟨rest.map (slashEntry h), taken'⟩, ⟨rfl, ?_⟩, rfl, rfl⟩
        · omega
        · simp only
          omega
    · have hc : e.covers h = false := by simpa using hc
      simp only [hc, Bool.not_false, if_true, Except.bind_eq_ok, ih, pure, Except.pure, Except.ok.injEq, Prod.mk.injEq,
        List.map_cons, slashEntry, Bool.false_eq_true, if_false]
      constructor
      · rintro ⟨⟨rest', t⟩, ⟨rfl, ht⟩, rfl, rfl⟩
        refine ⟨rfl, ?_⟩
        simp only [queued_cons]
        simp only at ht
        omega
      · rintro ⟨rfl, ht⟩
        simp only [queued_cons] at ht
        exact ⟨⟨rest.map (slashEntry h), taken'⟩, ⟨rfl, by simp only; omega⟩, rfl, rfl⟩

theorem sumEntries_eq_ok {total total' : Amount} :
    sumEntries queue total = .ok total' ↔ total'.val = total.val + queued queue := by
  induction queue generalizing total with
  | nil => simp [sumEntries, Fin.ext_iff, eq_comm]
  | cons e rest ih =>
    have hb : (total.checkedAdd e.amount).bind (sumEntries rest) = .ok total' ↔
        ∃ t, total.checkedAdd e.amount = .ok t ∧ sumEntries rest t = .ok total' := Except.bind_eq_ok
    rw [sumEntries, hb]
    simp only [Amount.checkedAdd_eq_ok, ih, queued_cons]
    constructor
    · rintro ⟨t, ht, htotal⟩
      omega
    · intro htotal
      have hbound := total'.isLt
      exact ⟨⟨total.val + e.amount.val, by omega⟩, rfl, by simp only; omega⟩

/-! ## Coin destroyed -/

/-- `x` native coin has been destroyed, out of what `src` held. -/
inductive Destroyed (src : Address) (x : Amount) (s : Store) : Store → Prop where
  | nothing (h : x.isZero = true) : Destroyed src x s s
  | some (y z : Amount) (hy : y.val + x.val = (s.ledger .native).balance src)
      (hz : z.val + x.val = (s.ledger .native).supply) :
      Destroyed src x s ((s.withBalance src .native y).withSupply .native z)

theorem Destroyed.frame (h : Destroyed src x s s') {k : StoreKey} (hk : k.isMoney = false) : s' k = s k := by
  cases h with
  | nothing h => rfl
  | some y z hy hz =>
    rw [Store.withSupply_apply k (by rintro rfl; cases hk), Store.withBalance_apply k (by rintro rfl; cases hk)]

theorem Destroyed.balance (h : Destroyed src x s s') :
    (s'.ledger .native).balance src + x.val = (s.ledger .native).balance src := by
  cases h with
  | nothing h => simp_all [Amount.isZero]
  | some y z hy hz => simpa [Store.ledger_withSupply, Store.ledger_withBalance] using hy

theorem Destroyed.supply (h : Destroyed src x s s') :
    (s'.ledger .native).supply + x.val = (s.ledger .native).supply := by
  cases h with
  | nothing h => simp_all [Amount.isZero]
  | some y z hy hz => simpa [Store.ledger_withSupply] using hz

theorem wp_slashNative : wp (Bank.slashNative src x) (fun _ s' => Destroyed src x s s') (fun _ _ => True) s := by
  simp only [Bank.slashNative, Bank.totalSupply, Bank.balance]
  simp
  intro _ v hv y hy w hw z hz
  have hbalance := Store.balance_of_getDecoded hv
  have hsupply := Store.supply_of_getDecoded hw
  have hsub := Amount.checkedSub_eq_ok.1 hy
  have hsub' := Amount.checkedSub_eq_ok.1 hz
  exact .some y z (by omega) (by omega)

theorem slashNative_succeeds (hs : s.Whole) (hx : x.isZero = false)
    (hbalance : x.val ≤ (s.ledger .native).balance src) (hsupply : x.val ≤ (s.ledger .native).supply) :
    wp (Bank.slashNative src x) (fun _ _ => True) (fun _ _ => False) s := by
  obtain ⟨v, hv, -⟩ := hs.getDecoded (k := .balance src .native) fun _ => rfl
  obtain ⟨w, hw, -⟩ := hs.getDecoded (k := .supply .native) fun _ => rfl
  rw [Store.balance_of_getDecoded hv] at hbalance
  rw [Store.supply_of_getDecoded hw] at hsupply
  obtain ⟨y, hy⟩ : ∃ y, (v.getD 0).checkedSub x = .ok y :=
    ⟨⟨(v.getD 0).val - x.val, by have := (v.getD 0).isLt; omega⟩, Amount.checkedSub_eq_ok.2 ⟨hbalance, rfl⟩⟩
  obtain ⟨z, hz⟩ : ∃ z, (w.getD 0).checkedSub x = .ok z :=
    ⟨⟨(w.getD 0).val - x.val, by have := (w.getD 0).isLt; omega⟩, Amount.checkedSub_eq_ok.2 ⟨hsupply, rfl⟩⟩
  simp [Bank.slashNative, Bank.totalSupply, Bank.balance, hx, hv, hw, hy, hz]

/-! ## Operations -/

section

variable {s s' : Store} {operator : Address} {x : Amount} {E : StakingError → Store → Prop}

@[simp] theorem wp_writeQueue {queue : List Unbonding} {Q : Unit → Store → Prop} :
    wp (writeQueue operator queue) Q E s ↔ Q () (s.withQueue operator queue) := by
  unfold writeQueue Store.withQueue
  split <;> rfl

theorem wp_requireBond {Q : Bond → Store → Prop} (h : ∀ b, s.bondAt operator = some b → Q b s) :
    wp (requireBond operator) Q (fun _ _ => True) s := by
  simp only [requireBond, bondOf]
  simp
  intro v hv
  have hat := Store.bondAt_of_read hv
  cases v with
  | none => trivial
  | some b => exact h b hat

theorem wp_unbondingOf {Q : List Unbonding → Store → Prop}
    (h : ∀ v, s.getDecoded (.unbonding operator) = .ok v → Q (s.queueAt operator) s) :
    wp (unbondingOf operator) Q (fun _ _ => True) s := by
  simp only [unbondingOf]
  simp
  intro v hv
  rw [← Store.queueAt_of_read hv]
  exact h v hv

variable [Crypto] {params : StakingParams}

theorem wp_bond {pk : PublicKey} {country : CountryCode} :
    wp (bond params operator pk country x) (fun _ s' => ∃ v s₁, s.bondAt operator = none ∧
      s.getDecoded .bondIndex = .ok v ∧ params.minBond ≤ x ∧ Bank.Paid operator stakingAccount .native x s s₁ ∧
      s' = (s₁.set (.bond operator) (Bond.new operator pk country x)).set .bondIndex
        ((v.getD [] ++ [operator]).insertionSort (· ≤ ·))) (fun _ _ => True) s := by
  simp only [bond, bondOf, candidates, moveStake, writeBond, writeIndex]
  simp
  intro _ hmin v hv hnone w hw _
  have hat := Store.bondAt_of_read hv
  rw [hnone] at hat
  refine (Bank.wp_transfer operator stakingAccount .native x s).mono (fun _ s₁ hpaid => ?_) fun _ _ _ => trivial
  exact ⟨hat, w, hw, hmin, s₁, hpaid, rfl⟩

theorem wp_addStake :
    wp (addStake operator x) (fun _ s' => ∃ b s₁ bonded, s.bondAt operator = some b ∧
      Bank.Paid operator stakingAccount .native x s s₁ ∧ bonded.val = b.bonded.val + x.val ∧
      s' = s₁.set (.bond b.operator) { b with bonded }) (fun _ _ => True) s := by
  simp only [addStake, moveStake, writeBond, orZero]
  simp
  intro _
  refine wp_requireBond fun b hb => ?_
  simp
  refine (Bank.wp_transfer operator stakingAccount .native x s).mono (fun _ s₁ hpaid => ?_) fun _ _ _ => trivial
  simp
  intro bonded hbonded
  exact ⟨b, hb, s₁, hpaid, bonded, Amount.checkedAdd_eq_ok.1 hbonded, rfl⟩

omit [Crypto] in
theorem wp_unbond {height : Height} {now : Timestamp} :
    wp (unbond params operator x height now) (fun _ s' => ∃ b bonded, s.bondAt operator = some b ∧
      x.val ≤ b.bonded.val ∧ bonded.val = b.bonded.val - x.val ∧
      s' = (s.set (.bond b.operator) { b with bonded }).withQueue operator
        (s.queueAt operator ++ [⟨x, height, Fin.saturatingAdd now params.unbondingMs⟩])) (fun _ _ => True) s := by
  simp only [unbond, writeBond, orZero]
  simp
  intro _
  refine wp_requireBond fun b hb => ?_
  simp
  intro _
  refine wp_unbondingOf fun _ _ => ?_
  simp
  intro _ bonded hbonded
  obtain ⟨hle, hval⟩ := Amount.checkedSub_eq_ok.1 hbonded
  exact ⟨b, hb, hle, bonded, hval, rfl⟩

theorem wp_withdraw {now : Timestamp} :
    wp (withdraw operator now) (fun total s' =>
      total.val = queued ((s.queueAt operator).filter fun e => e.matured now) ∧
      ((total.isZero = true ∧ s' = s.withQueue operator ((s.queueAt operator).filter fun e => !e.matured now)) ∨
        Bank.Paid stakingAccount operator .native total
          (s.withQueue operator ((s.queueAt operator).filter fun e => !e.matured now)) s')) (fun _ _ => True) s := by
  simp only [withdraw, moveStake, orZero]
  simp
  refine wp_unbondingOf fun _ _ => ?_
  simp
  intro e he hm total htotal
  have hsum := sumEntries_eq_ok.1 htotal
  refine ⟨fun hzero => ?_, fun hzero => ?_⟩
  · refine (Bank.wp_transfer stakingAccount operator .native total _).mono (fun _ s₁ hpaid => ?_) fun _ _ _ => trivial
    exact ⟨by simpa using hsum, .inr hpaid⟩
  · exact ⟨by simpa using hsum, .inl hzero⟩

/-- The books after a slash: the bond cut and jailed, the queue cut where it covers the infraction. -/
def slashBooks (s : Store) (operator : Address) (b : Bond) (infraction now : Height) : Store :=
  (s.set (.bond b.operator) { b with bonded := cut b.bonded, jailed := true, jailedAt := some now }).withQueue operator
    ((s.queueAt operator).map (slashEntry infraction))

def slashTotal (s : Store) (operator : Address) (b : Bond) (infraction : Height) : ℕ :=
  (fraction b.bonded SLASH_EQUIVOCATION_BPS).val +
    (queued (s.queueAt operator) - queued ((s.queueAt operator).map (slashEntry infraction)))

variable {infraction now : Height}

theorem wp_slash :
    wp (slash operator infraction now) (fun total s' => ∃ b v, s.bondAt operator = some b ∧ b.jailed = false ∧
      s.getDecoded (.unbonding operator) = .ok v ∧ total.val = slashTotal s operator b infraction ∧
      Destroyed stakingAccount total (slashBooks s operator b infraction now) s') (fun _ _ => True) s := by
  simp only [slash, writeBond, orZero]
  simp
  refine wp_requireBond fun b hb => ?_
  simp
  intro hjailed
  refine wp_unbondingOf fun v hv => ?_
  simp only [wp.bind_iff, wp.liftResult_iff, checkedSub_fraction]
  simp
  intro queue taken hslash total htotal
  obtain ⟨rfl, htaken⟩ := slashQueue_eq_ok.1 hslash
  have hsum := Amount.checkedAdd_eq_ok.1 htotal
  have hval : total.val = slashTotal s operator b infraction := by
    unfold slashTotal
    have : (0 : Amount).val = 0 := rfl
    omega
  refine ⟨fun hzero => ?_, fun hzero => ?_⟩
  · exact wp_slashNative.mono (fun _ s' h => ⟨b, hb, hjailed, ⟨v, hv⟩, hval, h⟩) fun _ _ _ => trivial
  · exact ⟨b, hb, hjailed, ⟨v, hv⟩, hval, .nothing hzero⟩

omit [Crypto] in
theorem ledger_slashBooks {b : Bond} : (slashBooks s operator b infraction now).ledger .native = s.ledger .native := by
  refine Store.ledger_congr (fun k hk => ?_) .native
  unfold slashBooks
  rw [Store.withQueue_apply (by rintro rfl; cases hk), Store.set_of_ne (by rintro rfl; cases hk)]

omit [Crypto] in
theorem slashTotal_le (s : Store) (operator : Address) (b : Bond) (infraction : Height) :
    slashTotal s operator b infraction ≤ b.bonded.val + queued (s.queueAt operator) := by
  have := fraction_le b.bonded
  unfold slashTotal
  omega

theorem slash_succeeds {b : Bond} {v : Option (List Unbonding)} (hs : s.Whole)
    (hb : s.bondAt operator = some b) (hjailed : b.jailed = false) (hq : s.getDecoded (.unbonding operator) = .ok v)
    (hheld : b.bonded.val + queued (s.queueAt operator) ≤ (s.ledger .native).balance stakingAccount)
    (hsupply : (s.ledger .native).balance stakingAccount ≤ (s.ledger .native).supply) :
    wp (slash operator infraction now) (fun _ _ => True) (fun _ _ => False) s := by
  have hle := slashTotal_le s operator b infraction
  have hcut := queued_slash_le infraction (s.queueAt operator)
  have hbound : (s.ledger .native).balance stakingAccount < 2 ^ 128 := Cell.amount_lt _
  obtain ⟨taken, htaken⟩ : ∃ taken : Amount,
      taken.val = queued (s.queueAt operator) - queued ((s.queueAt operator).map (slashEntry infraction)) :=
    ⟨⟨_, by omega⟩, rfl⟩
  obtain ⟨total, htotal⟩ : ∃ total : Amount, total.val = slashTotal s operator b infraction :=
    ⟨⟨slashTotal s operator b infraction, by omega⟩, rfl⟩
  have hslash : slashQueue infraction (s.queueAt operator) 0 =
      .ok ((s.queueAt operator).map (slashEntry infraction), taken) := by
    refine slashQueue_eq_ok.2 ⟨rfl, ?_⟩
    have : (0 : Amount).val = 0 := rfl
    omega
  have hadd : (fraction b.bonded SLASH_EQUIVOCATION_BPS).checkedAdd taken = .ok total := by
    refine Amount.checkedAdd_eq_ok.2 ?_
    unfold slashTotal at htotal
    omega
  have hqueue := Store.queueAt_of_read hq
  rw [hqueue] at hslash
  simp only [slash, requireBond, bondOf, unbondingOf, writeBond, orZero]
  simp [Store.read_of_bondAt hb, hjailed, hq, hslash, hadd, checkedSub_fraction]
  intro hzero
  have hledger : ((slashBooks s operator b infraction now).ledger .native) = s.ledger .native := ledger_slashBooks
  unfold slashBooks at hledger
  rw [hqueue] at hledger
  refine slashNative_succeeds ?_ hzero ?_ ?_
  · exact Store.Whole.withQueue hs.set
  · rw [hledger]
    omega
  · rw [hledger]
    omega

/-- Where the stake is there, a slash fails only for want of a bond to slash or of a queue that can be read. -/
theorem slash_fails (hs : s.Whole) (hheld : ∀ b, s.bondAt operator = some b →
      b.bonded.val + queued (s.queueAt operator) ≤ (s.ledger .native).balance stakingAccount)
    (hsupply : (s.ledger .native).balance stakingAccount ≤ (s.ledger .native).supply) :
    wp (slash operator infraction now) (fun _ _ => True)
      (fun e _ => e = .noSuchBond ∨ e = .alreadyJailed ∨ ∃ reason, e = .state (.corrupt "bond" reason)) s := by
  obtain ⟨v, hv, -⟩ := hs.getDecoded (k := .bond operator) fun _ => rfl
  have hat := Store.bondAt_of_read hv
  cases v with
  | none => simp [slash, requireBond, bondOf, hv]
  | some b =>
    cases hjailed : b.jailed with
    | true => simp [slash, requireBond, bondOf, hv, hjailed]
    | false =>
      cases hq : s.getDecoded (.unbonding operator) with
      | error e =>
        cases e with
        | corrupt key reason => simp [slash, requireBond, bondOf, unbondingOf, hv, hjailed, hq, corrupt]
      | ok w => exact (slash_succeeds hs hat hjailed hq (hheld b hat) hsupply).mono (fun _ _ => id) fun _ _ => False.elim

theorem withdraw_fails {now : Timestamp} (hs : s.Whole) (hbalanced : (s.ledger .native).Balanced)
    (hunfrozen : ∀ a, s (.frozen .native a) = none)
    (hheld : queued (s.queueAt operator) ≤ (s.ledger .native).balance stakingAccount) :
    wp (withdraw operator now) (fun _ _ => True)
      (fun e _ => e = .nothingMatured ∨ ∃ reason, e = .state (.corrupt "bond" reason)) s := by
  cases hq : s.getDecoded (.unbonding operator) with
  | error e =>
    cases e with
    | corrupt key reason => simp [withdraw, unbondingOf, hq, corrupt]
  | ok v =>
    have hsplit := queued_filter_add (fun e => e.matured now) (s.queueAt operator)
    have hbound : (s.ledger .native).balance stakingAccount < 2 ^ 128 := Cell.amount_lt _
    obtain ⟨total, htotal⟩ : ∃ total : Amount, total.val = queued ((s.queueAt operator).filter fun e => e.matured now) :=
      ⟨⟨queued ((s.queueAt operator).filter fun e => e.matured now), by omega⟩, rfl⟩
    have hsum : sumEntries ((s.queueAt operator).filter fun e => e.matured now) 0 = .ok total :=
      sumEntries_eq_ok.2 (htotal.trans (Nat.zero_add _).symm)
    have hledger : ∀ queue, (s.withQueue operator queue).ledger .native = s.ledger .native := fun queue =>
      Store.ledger_congr (fun k hk => Store.withQueue_apply (by rintro rfl; cases hk)) .native
    rw [Store.queueAt_of_read hq] at hsum
    simp only [withdraw, unbondingOf, moveStake, orZero]
    simp [hq, hsum]
    intro e he hm hzero
    refine (Bank.transfer_succeeds (Store.Whole.withQueue hs) hzero ?_ ?_ ?_ ?_).mono (fun _ _ _ => trivial)
      fun _ _ => False.elim
    · rw [Store.withQueue_apply (k := .frozen .native stakingAccount) nofun]
      exact hunfrozen _
    · rw [Store.withQueue_apply (k := .frozen .native operator) nofun]
      exact hunfrozen _
    · rw [hledger]
      omega
    · rw [hledger]
      exact hbalanced
end

end Staking

end AfroLink
