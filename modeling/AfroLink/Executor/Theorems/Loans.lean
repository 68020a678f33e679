import AfroLink.Executor.Lemmas.Loans
import AfroLink.Executor.Theorems.ShareOut

/-!
# The discipline of loans

Along every run from genesis a group makes a loan only on its terms, takes no more back than it is owed, fines a loan
once when it is late, and marks a default only when the loan was due.
-/

namespace AfroLink

def finedBetween : Option Member → Option Member → Bool
  | some m, some m' => decide (m.finesOwed < m'.finesOwed) || !m.loan.any (·.fined) && m'.loan.any (·.fined)
  | _, _ => false

def countFines (s s' : Store) (fines : Address → Address → ℕ) (_ : StoreEvent) : Address → Address → ℕ :=
  fun a x => (if (s.loan a x).isSome then fines a x else 0) +
    if finedBetween (s.member a x) (s'.member a x) then 1 else 0

/-- A step of a run within the discipline, with the fines counted beside it. -/
structure LoanStep [Crypto] (p : Store × (Address → Address → ℕ)) (es : List StoreEvent)
    (p' : Store × (Address → Address → ℕ)) : Prop where
  step : Trace.Beside Emits countFines p es p'
  made : ∀ a x l, p.1.loan a x = none → p'.1.loan a x = some l →
    ∃ ctx sender g m, es = [.message ctx sender (.approveGroupAction a)] ∧ p.1.group a = some g ∧
      p.1.member a x = some m ∧ g.Grants (p.1.holding a g.contribution.denom) m l
  terms : ∀ a x l l', p.1.loan a x = some l → p'.1.loan a x = some l' →
    l'.principal = l.principal ∧ l'.serviceCharge = l.serviceCharge ∧ l'.dueCycle = l.dueCycle ∧
      l'.guarantors = l.guarantors
  repaid : ∀ a x l, p'.1.loan a x = some l → l.repaid.val ≤ l.principal.val + l.serviceCharge.val
  ended : ∀ a x l m', p.1.loan a x = some l → p'.1.member a x = some m' → m'.loan = none →
    (∃ ctx sender amount, es = [.message ctx sender (.repayLoan a amount)] ∧
      l.repaid.val + amount.val ≤ l.principal.val + l.serviceCharge.val) ∨
    ∃ ctx sender, es = [.message ctx sender (.shareOut a)]
  fined : ∀ a x, finedBetween (p.1.member a x) (p'.1.member a x) = true →
    ∃ ctx sender g l, es = [.message ctx sender (.closeCycle a)] ∧ p.1.group a = some g ∧ p.1.loan a x = some l ∧
      l.dueCycle ≤ g.cycle ∧ l.repaid.val < l.principal.val + l.serviceCharge.val
  once : ∀ a x, p'.2 a x ≤ 1
  defaulted : ∀ a x m m', p.1.member a x = some m → p'.1.member a x = some m' →
    m.loansDefaulted < m'.loansDefaulted →
    ∃ ctx sender g l, es = [.message ctx sender (.shareOut a)] ∧ p.1.group a = some g ∧ m.loan = some l ∧
      l.dueCycle ≤ g.cycle

/-! ## One member -/

namespace MemberMove

variable {a : Address} {s : Store} {ev : StoreEvent} {m m' : Option Member} {l l' : Loan}

theorem made (h : MemberMove a s ev m m') (hnone : m.bind (·.loan) = none) (hl' : m'.bind (·.loan) = some l') :
    ∃ ctx sender g m₀, ev = .message ctx sender (.approveGroupAction a) ∧ s.group a = some g ∧ m = some m₀ ∧
      g.Grants (s.holding a g.contribution.denom) m₀ l' := by
  cases h with
  | same => cases hnone.symm.trans hl'
  | lost => cases hl'
  | founded h => cases h.symm.trans hl'
  | @moved m m' g ctx sender msg hev hgroup hmem hsound h =>
    have hnone : m.loan = none := hnone
    have hl' : m'.loan = some l' := hl'
    cases h with
    | kept h => cases hnone.symm.trans (h.loan.symm.trans hl')
    | made h =>
      cases hl'
      exact ⟨ctx, sender, g, m, hev, hgroup, rfl, h⟩
    | repaid hloan howed hle hafter hfines hdefaults => cases hnone.symm.trans hloan
    | fined hloan hfirst hlate hunpaid hafter hdefaults => cases hnone.symm.trans hloan
    | settled hround hloan hfines hdefaults => cases hloan.symm.trans hl'

theorem continues (h : MemberMove a s ev m m') (hl : m.bind (·.loan) = some l) (hl' : m'.bind (·.loan) = some l') :
    (l'.principal = l.principal ∧ l'.serviceCharge = l.serviceCharge ∧ l'.dueCycle = l.dueCycle ∧
      l'.guarantors = l.guarantors) ∧ (l.fined = true → l'.fined = true) := by
  cases h with
  | same =>
    cases hl.symm.trans hl'
    exact ⟨⟨rfl, rfl, rfl, rfl⟩, id⟩
  | lost => cases hl'
  | founded h => cases hl
  | @moved m m' g ctx sender msg hev hgroup hmem hsound h =>
    have hl : m.loan = some l := hl
    have hl' : m'.loan = some l' := hl'
    cases h with
    | kept h =>
      cases hl.symm.trans (h.loan.symm.trans hl')
      exact ⟨⟨rfl, rfl, rfl, rfl⟩, id⟩
    | made h => cases h.none.symm.trans hl
    | repaid hloan howed hle hafter hfines hdefaults =>
      cases hloan.symm.trans hl
      rcases hafter with hnone | ⟨repaid, -, hsome⟩
      · cases hnone.symm.trans hl'
      · cases hsome.symm.trans hl'
        exact ⟨⟨rfl, rfl, rfl, rfl⟩, id⟩
    | fined hloan hfirst hlate hunpaid hafter hdefaults =>
      cases hloan.symm.trans hl
      cases hafter.symm.trans hl'
      exact ⟨⟨rfl, rfl, rfl, rfl⟩, fun _ => rfl⟩
    | settled hround hloan hfines hdefaults => cases hloan.symm.trans hl'

theorem ended {m' : Member} (h : MemberMove a s ev m (some m')) (hl : m.bind (·.loan) = some l)
    (hnone : m'.loan = none) :
    (∃ ctx sender amount, ev = .message ctx sender (.repayLoan a amount) ∧
      l.repaid.val + amount.val ≤ l.principal.val + l.serviceCharge.val) ∨
    ∃ ctx sender, ev = .message ctx sender (.shareOut a) := by
  cases h with
  | same => cases hnone.symm.trans hl
  | founded h => cases hl
  | @moved m _ g ctx sender msg hev hgroup hmem hsound h =>
    have hl : m.loan = some l := hl
    cases h with
    | kept h => cases hnone.symm.trans (h.loan.trans hl)
    | made h => cases hnone
    | @repaid _ _ _ amount owed hloan howed hle hafter hfines hdefaults =>
      cases hloan.symm.trans hl
      exact .inl ⟨ctx, sender, amount, hev,
        Loan.repaid_le_of_outstanding howed hle (hsound.repaid m hmem l hl)⟩
    | fined hloan hfirst hlate hunpaid hafter hdefaults => cases hnone.symm.trans hafter
    | settled hround hloan hfines hdefaults => exact .inr ⟨ctx, sender, hev⟩

theorem fined (h : MemberMove a s ev m m') (hfined : finedBetween m m' = true) :
    ∃ ctx sender g l, ev = .message ctx sender (.closeCycle a) ∧ s.group a = some g ∧ m.bind (·.loan) = some l ∧
      l.dueCycle ≤ g.cycle ∧ l.repaid.val < l.principal.val + l.serviceCharge.val ∧ l.fined = false ∧
      m'.bind (·.loan) = some { l with fined := true } := by
  cases h with
  | same m =>
    cases m with
    | none => cases hfined
    | some m => simp [finedBetween] at hfined
  | lost m => cases m <;> cases hfined
  | founded h => cases hfined
  | @moved m m' g ctx sender msg hev hgroup hmem hsound h =>
    simp only [finedBetween, Bool.or_eq_true, decide_eq_true_eq, Bool.and_eq_true, Bool.not_eq_true'] at hfined
    cases h with
    | kept h => simp [h.loan, h.fines] at hfined
    | made h => simp [h.fresh.2] at hfined
    | repaid hloan howed hle hafter hfines hdefaults =>
      rcases hafter with hnone | ⟨repaid, -, hsome⟩
      · simp [hfines, hnone] at hfined
      · simp [hfines, hsome, hloan] at hfined
    | @fined _ _ l hloan hfirst hlate hunpaid hafter hdefaults =>
      exact ⟨ctx, sender, g, l, hev, hgroup, hloan, hlate, hunpaid, hfirst, hafter⟩
    | settled hround hloan hfines hdefaults => simp [hfines, hloan] at hfined

theorem defaulted {m m' : Member} (h : MemberMove a s ev (some m) (some m'))
    (hmore : m.loansDefaulted < m'.loansDefaulted) :
    ∃ ctx sender g l, ev = .message ctx sender (.shareOut a) ∧ s.group a = some g ∧ m.loan = some l ∧
      l.dueCycle ≤ g.cycle := by
  cases h with
  | same => exact absurd hmore (lt_irrefl _)
  | @moved _ _ g ctx sender msg hev hgroup hmem hsound h =>
    cases h with
    | kept h => exact absurd hmore (h.defaults ▸ lt_irrefl _)
    | made h => exact absurd hmore (lt_irrefl _)
    | repaid hloan howed hle hafter hfines hdefaults => exact absurd hmore (hdefaults ▸ lt_irrefl _)
    | fined hloan hfirst hlate hunpaid hafter hdefaults => exact absurd hmore (hdefaults ▸ lt_irrefl _)
    | settled hround hloan hfines hdefaults =>
      cases hl : m.loan with
      | none => exact absurd hmore (hdefaults hl ▸ lt_irrefl _)
      | some l =>
        -- a round is settled when it has run to its end, and no loan is due later
        have hend := GroupAccount.roundEnds_le_of_complete hround hsound.start
        exact ⟨ctx, sender, g, l, hev, hgroup, rfl, (hsound.due m hmem l hl).trans hend⟩

end MemberMove

/-! ## The run -/

/-- The loans are in order, and the count of fines agrees with them. -/
structure FinesCounted (p : Store × (Address → Address → ℕ)) : Prop where
  sound : p.1.LoansSound
  once : ∀ a x, p.2 a x ≤ 1
  none : ∀ a x l, p.1.loan a x = some l → l.fined = false → p.2 a x = 0

section

variable [Crypto] {p p' : Store × (Address → Address → ℕ)} {es : List StoreEvent}

theorem FinesCounted.step (hp : FinesCounted p) (h : Trace.Beside Emits countFines p es p') : FinesCounted p' := by
  obtain ⟨hemits, hbook⟩ := h
  have hcount : ∀ a x, ∃ ev, MemberMove a p.1 ev (p.1.member a x) (p'.1.member a x) ∧
      p'.2 a x = countFines p.1 p'.1 p.2 ev a x := by
    intro a x
    obtain ⟨ev, rfl, hmove⟩ := hemits.memberMove hp.sound a x
    exact ⟨ev, hmove, by rw [hbook]; rfl⟩
  refine ⟨hemits.loansSound hp.sound, fun a x => ?_, fun a x l' hl' hfirst => ?_⟩
  · obtain ⟨ev, hmove, hval⟩ := hcount a x
    rw [hval, countFines]
    cases hfined : finedBetween (p.1.member a x) (p'.1.member a x) with
    | false =>
      have := hp.once a x
      split <;> simp [this]
    | true =>
      obtain ⟨ctx, sender, g, l, -, -, hl, -, -, hnot, -⟩ := hmove.fined hfined
      have hzero := hp.none a x l hl hnot
      split <;> simp [hzero]
  · obtain ⟨ev, hmove, hval⟩ := hcount a x
    rw [hval, countFines]
    have hnot : finedBetween (p.1.member a x) (p'.1.member a x) = false := by
      by_contra hfined
      obtain ⟨ctx, sender, g, l, -, -, -, -, -, -, hafter⟩ := hmove.fined (Bool.not_eq_false _ ▸ hfined)
      cases hafter.symm.trans hl'
      cases hfirst
    rw [hnot]
    cases hl : p.1.loan a x with
    | none => rfl
    | some l =>
      have hbefore : l.fined = false := by
        by_contra hfined
        have := (hmove.continues hl hl').2 (Bool.not_eq_false _ ▸ hfined)
        cases hfirst.symm.trans this
      simp [hp.none a x l hl hbefore]

theorem FinesCounted.loanStep (hp : FinesCounted p) (h : Trace.Beside Emits countFines p es p') : LoanStep p es p' := by
  have hp' := hp.step h
  have hmoves := h.1.memberMove hp.sound
  refine ⟨h, fun a x l hnone hl => ?_, fun a x l l' hl hl' => ?_, fun a x l hl => ?_, fun a x l m' hl hm' hnone => ?_,
    fun a x hfined => ?_, hp'.once, fun a x m m' hm hm' hmore => ?_⟩
  · obtain ⟨ev, rfl, hmove⟩ := hmoves a x
    obtain ⟨ctx, sender, g, m, rfl, hgroup, hm, hgrants⟩ := hmove.made hnone hl
    exact ⟨ctx, sender, g, m, rfl, hgroup, hm, hgrants⟩
  · obtain ⟨ev, rfl, hmove⟩ := hmoves a x
    exact (hmove.continues hl hl').1
  · obtain ⟨m, hm, hl⟩ := Option.bind_eq_some_iff.1 hl
    obtain ⟨g, hg, hm⟩ := Option.bind_eq_some_iff.1 hm
    exact (hp'.sound a g hg).repaid m (List.mem_of_find?_eq_some hm) l hl
  · obtain ⟨ev, rfl, hmove⟩ := hmoves a x
    rw [hm'] at hmove
    simpa using hmove.ended hl hnone
  · obtain ⟨ev, rfl, hmove⟩ := hmoves a x
    obtain ⟨ctx, sender, g, l, rfl, hgroup, hl, hdue, hunpaid, -⟩ := hmove.fined hfined
    exact ⟨ctx, sender, g, l, rfl, hgroup, hl, hdue, hunpaid⟩
  · obtain ⟨ev, rfl, hmove⟩ := hmoves a x
    rw [hm, hm'] at hmove
    obtain ⟨ctx, sender, g, l, rfl, hgroup, hl, hdue⟩ := hmove.defaulted hmore
    exact ⟨ctx, sender, g, l, rfl, hgroup, hl, hdue⟩

end

theorem Genesis.apply_finesCounted [Crypto] [StateRoot] {g : Genesis} {limits : GenesisLimits} {b : Block}
    {start : Store} (h : Runs (g.apply limits) .empty b start) : FinesCounted (start, fun _ _ => 0) := by
  refine ⟨fun a g hg => ?_, fun _ _ => Nat.zero_le _, fun _ _ _ _ _ => rfl⟩
  cases (Genesis.apply_group h a).symm.trans hg

theorem loans_disciplined [Crypto] [StateRoot] (g : Genesis) (limits : GenesisLimits) (b : Block) (start : Store)
    (hgenesis : Runs (g.apply limits) .empty b start) (e : Executor)
    (blocks : List (BlockContext × List Transaction)) :
    ∃ fines, Trace LoanStep (start, fun _ _ => 0) (runEvents e blocks start) (executeBlocks e blocks start, fines) := by
  obtain ⟨fines, hrun⟩ : ∃ fines, Trace (Trace.Beside Emits countFines) (start, fun _ _ => 0)
      (runEvents e blocks start) (executeBlocks e blocks start, fines) :=
    (executeBlocks_trace e blocks start).exists_beside _
  have hcounted := hrun.along (fun _ _ _ hp h => hp.step h) (Genesis.apply_finesCounted hgenesis)
  exact ⟨fines, hcounted.mono fun h => h.1.loanStep h.2⟩

namespace Sample

/-- The loan that two cycles closed on is fined, within the discipline. -/
theorem loans_disciplined_overdue :
    (∃ fines, Trace LoanStep (opened lenders, fun _ _ => 0) (runEvents ⟨chain⟩ overdue (opened lenders))
      (executeBlocks ⟨chain⟩ overdue (opened lenders), fines)) ∧
    ((executeBlocks ⟨chain⟩ overdue (opened lenders)).loan lendingGroup (addressOf 1)).map (·.fined) = some true := by
  obtain ⟨b, hgenesis⟩ := lenders_genesis
  exact ⟨loans_disciplined _ _ b _ hgenesis ⟨chain⟩ overdue, by decide +kernel⟩

end Sample

end AfroLink
