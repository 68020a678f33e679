import AfroLink.Base.Portions
import AfroLink.Types.Lemmas.Group

/-!
# The arithmetic of a share-out

What each member is paid, as a formula.
-/

namespace AfroLink

theorem Amount.mulRatio_of_le (a : Amount) (numer denom : U128) (hpos : 0 < denom.val)
    (hle : numer.val ≤ denom.val) (hlt : denom.val < 2 ^ 64) :
    ∃ c, a.mulRatio numer denom = .ok c ∧ c.val = a.val * numer.val / denom.val := by
  have hquotient : a.val / denom.val * numer.val < 2 ^ 128 := by
    calc a.val / denom.val * numer.val
      _ ≤ a.val / denom.val * denom.val := Nat.mul_le_mul_left _ hle
      _ ≤ a.val := Nat.div_mul_le_self _ _
      _ < 2 ^ 128 := a.isLt
  have hremainder : a.val % denom.val * numer.val < 2 ^ 128 := by
    calc a.val % denom.val * numer.val
      _ ≤ 2 ^ 64 * numer.val := Nat.mul_le_mul_right _ ((Nat.mod_lt _ hpos).trans hlt).le
      _ < 2 ^ 64 * 2 ^ 64 := Nat.mul_lt_mul_of_pos_left (hle.trans_lt hlt) (by norm_num)
      _ = 2 ^ 128 := by norm_num
  have hsum : a.val / denom.val * numer.val + a.val % denom.val * numer.val / denom.val =
      a.val * numer.val / denom.val := by
    conv_rhs => rw [← Nat.div_add_mod a.val denom.val, Nat.add_mul, Nat.mul_assoc]
    rw [Nat.mul_add_div hpos]
  have htotal : a.val * numer.val / denom.val < 2 ^ 128 := by
    refine lt_of_le_of_lt (Nat.div_le_of_le_mul ?_) a.isLt
    rw [Nat.mul_comm denom.val]
    exact Nat.mul_le_mul_left _ hle
  refine ⟨⟨a.val * numer.val / denom.val, htotal⟩, ?_, rfl⟩
  have hq : Fin.checkedMul (⟨a.val / denom.val, lt_of_le_of_lt (Nat.div_le_self _ _) a.isLt⟩ : U128) numer =
      some ⟨_, hquotient⟩ := Fin.checkedMul_eq_some.2 rfl
  have hr : Fin.checkedMul (⟨a.val % denom.val, lt_of_le_of_lt (Nat.mod_le _ _) a.isLt⟩ : U128) numer =
      some ⟨_, hremainder⟩ := Fin.checkedMul_eq_some.2 rfl
  have hadd : Fin.checkedAdd (⟨_, hquotient⟩ : U128)
      ⟨a.val % denom.val * numer.val / denom.val, lt_of_le_of_lt (Nat.div_le_self _ _) hremainder⟩ =
      some ⟨a.val * numer.val / denom.val, htotal⟩ := Fin.checkedAdd_eq_some.2 hsum.symm
  simp [mulRatio, hpos.ne', hq, hr, hadd]

/-! ## Debts -/

theorem orOverflow_checkedAdd_of_lt {a b : Amount} (h : a.val + b.val < 2 ^ 128) :
    orOverflow (a.checkedAdd b) = .ok ⟨a.val + b.val, h⟩ :=
  orOverflow_eq_ok.2 (Amount.checkedAdd_eq_ok.2 rfl)

theorem orOverflow_checkedAdd_of_le {a b : Amount} (h : ¬ a.val + b.val < 2 ^ 128) :
    orOverflow (a.checkedAdd b) = .error .overflow := by
  cases hadd : a.checkedAdd b with
  | error e => rfl
  | ok c => exact absurd (Amount.checkedAdd_eq_ok.1 hadd ▸ c.isLt) h

theorem Loan.outstanding_of_lt {l : Loan} (h : l.principal.val + l.serviceCharge.val < 2 ^ 128) :
    ∃ x, l.outstanding = .ok x ∧ x.val = l.principal.val + l.serviceCharge.val - l.repaid.val := by
  unfold outstanding
  rw [orOverflow_checkedAdd_of_lt h]
  exact ⟨_, rfl, rfl⟩

theorem Loan.outstanding_of_le {l : Loan} (h : ¬ l.principal.val + l.serviceCharge.val < 2 ^ 128) :
    l.outstanding = .error .overflow := by
  unfold outstanding
  rw [orOverflow_checkedAdd_of_le h]
  rfl

namespace Member

/-- What a member owes: the rest of the loan and the fines. -/
def debt (m : Member) : ℕ :=
  (m.loan.elim 0 fun l => l.principal.val + l.serviceCharge.val - l.repaid.val) + m.finesOwed.val

def DebtFits (m : Member) : Prop :=
  (m.loan.elim 0 fun l => l.principal.val + l.serviceCharge.val) < 2 ^ 128 ∧ m.debt < 2 ^ 128

instance (m : Member) : Decidable m.DebtFits := inferInstanceAs (Decidable (_ ∧ _))

theorem owed_of_fits {m : Member} (h : m.DebtFits) : ∃ x, m.owed = .ok x ∧ x.val = m.debt := by
  unfold DebtFits debt at h
  unfold owed debt
  cases hloan : m.loan with
  | none =>
    simp only [hloan, Option.elim_none] at h ⊢
    exact ⟨_, orOverflow_checkedAdd_of_lt h.2, rfl⟩
  | some l =>
    simp only [hloan, Option.elim_some] at h ⊢
    obtain ⟨x, hx, hval⟩ := Loan.outstanding_of_lt h.1
    rw [← hval] at h
    rw [hx, ← hval]
    exact ⟨_, orOverflow_checkedAdd_of_lt h.2, rfl⟩

theorem owed_of_not_fits {m : Member} (h : ¬ m.DebtFits) : m.owed = .error .overflow := by
  unfold DebtFits debt at h
  unfold owed
  cases hloan : m.loan with
  | none =>
    simp only [hloan, Option.elim_none, Nat.zero_add] at h
    exact absurd ⟨by norm_num, m.finesOwed.isLt⟩ h
  | some l =>
    simp only [hloan, Option.elim_some] at h ⊢
    by_cases htotal : l.principal.val + l.serviceCharge.val < 2 ^ 128
    · obtain ⟨x, hx, hval⟩ := Loan.outstanding_of_lt htotal
      rw [← hval] at h
      rw [hx]
      exact orOverflow_checkedAdd_of_le fun hlt => h ⟨htotal, hlt⟩
    · rw [Loan.outstanding_of_le htotal]
      rfl

def settled (m : Member) : Member :=
  { m with loansDefaulted := if m.loan.isSome then m.loansDefaulted.saturatingAdd 1 else m.loansDefaulted
           loan := none, finesOwed := 0, shares := 0, sharesThisCycle := 0 }

def net (fund total : ℕ) (m : Member) : ℕ := fund * m.shares.val / total - m.debt

def payment (fund total : ℕ) (m : Member) : Option (Address × ℕ) :=
  if m.net fund total = 0 then none else some (m.address, m.net fund total)

theorem sum_payments (fund total : ℕ) (ms : List Member) :
    ((ms.filterMap (payment fund total)).map (·.2)).sum = (ms.map (net fund total)).sum := by
  induction ms with
  | nil => rfl
  | cons m rest ih =>
    by_cases hzero : m.net fund total = 0
    · simp [payment, hzero, ih]
    · simp [payment, hzero, ih]

end Member

namespace GroupAccount

variable {fund : Amount} {total : U64}

variable {m : Member} {ms : List Member} {g : GroupAccount}

theorem settleMember_of_fits (fund : Amount) (hpos : 0 < total.val) (hle : m.shares.val ≤ total.val)
    (hfits : m.DebtFits) :
    ∃ x : Amount, settleMember fund total m = .ok (m.settled, x) ∧ x.val = m.net fund.val total.val := by
  obtain ⟨gross, hgross, hval⟩ := fund.mulRatio_of_le (u64To128 m.shares) (u64To128 total) hpos hle total.isLt
  obtain ⟨owed, howed, hdebt⟩ := Member.owed_of_fits hfits
  refine ⟨Fin.saturatingSub gross owed, ?_, ?_⟩
  · simp only [settleMember, orOverflow_eq_ok.2 hgross, howed]
    rfl
  · rw [Fin.saturatingSub_val, hval, hdebt]
    rfl

theorem settleMember_of_not_fits (hpos : 0 < total.val) (hle : m.shares.val ≤ total.val)
    (hfits : ¬ m.DebtFits) : settleMember fund total m = .error .overflow := by
  obtain ⟨gross, hgross, -⟩ := fund.mulRatio_of_le (u64To128 m.shares) (u64To128 total) hpos hle total.isLt
  simp only [settleMember, orOverflow_eq_ok.2 hgross, Member.owed_of_not_fits hfits]
  rfl

theorem settleMembers_of_fits (hpos : 0 < total.val)
    (hle : ∀ m ∈ ms, m.shares.val ≤ total.val) (hfits : ∀ m ∈ ms, m.DebtFits) :
    ∃ payments, settleMembers fund total ms = .ok (ms.map Member.settled, payments) ∧
      payments.map (fun p => (p.1, p.2.val)) = ms.filterMap (Member.payment fund.val total.val) := by
  induction ms with
  | nil => exact ⟨[], rfl, rfl⟩
  | cons m rest ih =>
    obtain ⟨payments, hrest, hpayments⟩ := ih (fun x hx => hle x (by simp [hx])) fun x hx => hfits x (by simp [hx])
    obtain ⟨x, hm, hx⟩ := settleMember_of_fits fund hpos (hle m (by simp)) (hfits m (by simp))
    refine ⟨if x.isZero then payments else (m.address, x) :: payments, ?_, ?_⟩
    · simp only [settleMembers, hm, hrest]
      rfl
    · have hzero : x.isZero = true ↔ m.net fund.val total.val = 0 := by simp [Amount.isZero, hx]
      by_cases hnet : m.net fund.val total.val = 0
      · simp [hzero.2 hnet, Member.payment, hnet, hpayments]
      · have hx0 : x.isZero = false := Bool.eq_false_iff.2 fun h => hnet (hzero.1 h)
        simp [hx0, Member.payment, hnet, hpayments, hx]

theorem settleMembers_of_not_fits (hpos : 0 < total.val)
    (hle : ∀ m ∈ ms, m.shares.val ≤ total.val) (hfits : ¬ ∀ m ∈ ms, m.DebtFits) :
    settleMembers fund total ms = .error .overflow := by
  induction ms with
  | nil => simp at hfits
  | cons m rest ih =>
    by_cases hm : m.DebtFits
    · have hrest : ¬ ∀ x ∈ rest, x.DebtFits := by
        intro hall
        refine hfits fun x hx => ?_
        rcases List.mem_cons.1 hx with rfl | hx
        · exact hm
        · exact hall x hx
      obtain ⟨x, hsettle, -⟩ := settleMember_of_fits fund hpos (hle m (by simp)) hm
      simp only [settleMembers, hsettle, ih (fun x hx => hle x (by simp [hx])) hrest]
      rfl
    · simp only [settleMembers, settleMember_of_not_fits hpos (hle m (by simp)) hm]
      rfl

/-! ## The whole group -/

theorem shares_le_sharesHeld (h : m ∈ ms) : m.shares.val ≤ sharesHeld ms :=
  List.le_sum_of_mem (List.mem_map.2 ⟨m, h, rfl⟩)

theorem shares_le_totalShares (h : m ∈ g.members) : m.shares.val ≤ g.totalShares.val := by
  have hle := shares_le_sharesHeld h
  have hlt := m.shares.isLt
  rw [totalShares_val]
  omega

def sharedOut (g : GroupAccount) : GroupAccount :=
  { g with members := g.members.map Member.settled, round := g.round.saturatingAdd 1, roundStartCycle := g.cycle
           pending := none }

theorem shareOut_of_complete (hround : g.roundComplete = true) (hfund : fund ≠ 0) (hshares : 0 < sharesHeld g.members) :
    g.shareOut fund = (settleMembers fund g.totalShares g.members).map fun r =>
      ({ g with members := r.1, round := g.round.saturatingAdd 1, roundStartCycle := g.cycle, pending := none }, r.2) := by
  obtain ⟨rules, hrules, -⟩ := (Option.any_eq_true _ _).1 hround
  have htotal : g.totalShares ≠ 0 := fun h => by
    have hval := totalShares_val g
    rw [h] at hval
    simp only [Fin.val_zero] at hval
    omega
  have hpos : fund.isZero = false := by
    rw [Amount.isZero, beq_eq_false_iff_ne]
    exact fun h => hfund (Fin.ext h)
  simp only [shareOut, requireShareRules, hrules, hround, hpos, htotal]
  cases settleMembers fund g.totalShares g.members with
  | error e => rfl
  | ok r => rfl

theorem shareOut_of_no_shares (hround : g.roundComplete = true) (hfund : fund ≠ 0)
    (hshares : sharesHeld g.members = 0) : g.shareOut fund = .error .noShares := by
  obtain ⟨rules, hrules, -⟩ := (Option.any_eq_true _ _).1 hround
  have htotal : g.totalShares = 0 := Fin.ext (by rw [totalShares_val, hshares]; rfl)
  have hpos : fund.isZero = false := by
    rw [Amount.isZero, beq_eq_false_iff_ne]
    exact fun h => hfund (Fin.ext h)
  simp only [shareOut, requireShareRules, hrules, hround, hpos, htotal]
  rfl

end GroupAccount

end AfroLink
