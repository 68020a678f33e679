import AfroLink.Executor.Lemmas.Groups

/-!
# Loans

A message to a group makes a loan, takes a repayment, fines what is late, or settles the round.
-/

namespace AfroLink

/-! ## What a message does to a member -/

/-- The terms on which a group that holds `pot` makes `m` the loan `l`. -/
structure GroupAccount.Grants (g : GroupAccount) (pot : Amount) (m : Member) (l : Loan) : Prop where
  none : m.loan = none
  fund : g.socialFund.val + l.principal.val ≤ pot.val
  due : l.dueCycle ≤ g.roundEndsAtCycle
  fresh : l.repaid = 0 ∧ l.fined = false
  distinct : l.guarantors.Nodup
  others : ∀ x ∈ l.guarantors, x ≠ m.address ∧ g.isMember x = true
  agreed : ∃ rules, g.shareRules = some rules ∧ l.guarantors.length = rules.requiredGuarantors.val ∧
    l.principal.val * rules.coverBps.val / 10000 ≤ g.contribution.amount.val * m.shares.val

/-- What a message of `sender` to the group at `a` does to the debts of a member. -/
inductive LoanMove (g : GroupAccount) (pot : Amount) (sender a : Address) : Message → Member → Member → Prop where
  | kept {msg : Message} {m m' : Member} (h : m.SameDebts m') : LoanMove g pot sender a msg m m'
  | made {m : Member} {l : Loan} (h : g.Grants pot m l) :
      LoanMove g pot sender a (.approveGroupAction a) m { m with loan := some l }
  | repaid {m m' : Member} {l : Loan} {amount owed : Amount} (hloan : m.loan = some l) (howed : l.outstanding = .ok owed)
      (hle : amount ≤ owed)
      (hafter : m'.loan = none ∨ ∃ repaid, repaid.val = l.repaid.val + amount.val ∧ m'.loan = some { l with repaid })
      (hfines : m'.finesOwed = m.finesOwed) (hdefaults : m'.loansDefaulted = m.loansDefaulted) :
      LoanMove g pot sender a (.repayLoan a amount) m m'
  | fined {m m' : Member} {l : Loan} (hloan : m.loan = some l) (hfirst : l.fined = false) (hdue : l.dueCycle ≤ g.cycle)
      (hunpaid : l.repaid.val < l.principal.val + l.serviceCharge.val)
      (hafter : m'.loan = some { l with fined := true }) (hdefaults : m'.loansDefaulted = m.loansDefaulted) :
      LoanMove g pot sender a (.closeCycle a) m m'
  | settled {m m' : Member} (hround : g.roundComplete = true) (hloan : m'.loan = none) (hfines : m'.finesOwed = 0)
      (hdefaults : m.loan = none → m'.loansDefaulted = m.loansDefaulted) : LoanMove g pot sender a (.shareOut a) m m'

variable {a sender payer : Address} {R : Member → Member → Prop} {payments : List (Address × Amount)} {msg : Message}
  {g g' : GroupAccount} {pot : Amount} {ctx : BlockContext}

theorem Replaces.forall₂ {m m' : Member} {members members' : List Member}
    (h : Replaces a m m' members members') (hrefl : ∀ x, R x x) (hm : R m m') : List.Forall₂ R members members' := by
  obtain ⟨before, after, rfl, rfl⟩ := h.split
  have hsame : ∀ l : List Member, List.Forall₂ R l l := fun l => List.forall₂_same.2 fun x _ => hrefl x
  exact List.rel_append (hsame before) (.cons hm (hsame after))

theorem find_member_cases {l l' : List Member}
    (h : List.Forall₂ (fun m m' => m'.address = m.address ∧ R m m') l l') (x : Address) :
    l.find? (·.address == x) = none ∧ l'.find? (·.address == x) = none ∨
      ∃ m m', l.find? (·.address == x) = some m ∧ l'.find? (·.address == x) = some m' ∧ R m m' := by
  induction h with
  | nil => exact .inl ⟨rfl, rfl⟩
  | @cons m m' rest rest' hm _ ih =>
    by_cases hx : m.address = x
    · exact .inr ⟨m, m', by simp [hx], by simp [hm.1, hx], hm.2⟩
    · have hx' : (m.address == x) = false := by simpa using hx
      simpa [List.find?_cons, hm.1, hx'] using ih

theorem exists_of_forall₂ {l l' : List Member} {m' : Member}
    (h : List.Forall₂ R l l') (hm' : m' ∈ l') : ∃ m ∈ l, R m m' := by
  induction h with
  | nil => cases hm'
  | @cons m n rest rest' hm _ ih =>
    rcases List.mem_cons.1 hm' with rfl | hm'
    · exact ⟨m, .head _, hm⟩
    · obtain ⟨m₀, hmem, hR⟩ := ih hm'
      exact ⟨m₀, .tail _ hmem, hR⟩

namespace GroupAccount

variable {g g' : GroupAccount} {pot : Amount} {sender a : Address}

theorem Grants.of_approves {rules : ShareRules} {m : Member} {l : Loan} (hcount : g.members.length ≤ MAX_GROUP_MEMBERS)
    (hrules : g.shareRules = some rules) (hmem : m ∈ g.members) (hfund : g.socialFund.val + l.principal.val ≤ pot.val)
    (hfresh : l.repaid = 0 ∧ l.fined = false) (h : g.Approves rules m l.principal l.guarantors l.dueCycle) :
    g.Grants pot m l := by
  obtain ⟨hgot, hdistinct, hothers⟩ := checkGuarantors_eq_ok h.guarantors
  have hfew := length_guarantors h.guarantors (isMember_iff.2 (List.mem_map.2 ⟨m, hmem, rfl⟩))
  obtain ⟨required, hrequired, hcover⟩ := h.cover
  obtain ⟨-, hval⟩ := Amount.mulRatio_eq_ok (orOverflow_eq_ok.1 hrequired)
  refine ⟨h.none, hfund, checkTermFits_eq_ok h.term, hfresh, hdistinct, hothers, rules, hrules, ?_, ?_⟩
  · simp only [MAX_GROUP_MEMBERS] at hcount
    omega
  · exact hval ▸ hcover

theorem settleMembers_loanMove {fund : Amount} {total : U64} {ms ms' : List Member}
    {payments : List (Address × Amount)} (hround : g.roundComplete = true)
    (h : settleMembers fund total ms = .ok (ms', payments)) :
    List.Forall₂ (fun m m' => m'.address = m.address ∧ LoanMove g pot sender a (.shareOut a) m m') ms ms' := by
  refine (settleMembers_forall₂ h).imp ?_
  rintro m m' ⟨net, hm⟩
  obtain ⟨gross, -, hm⟩ := Except.bind_eq_ok.1 hm
  obtain ⟨owed, -, hm⟩ := Except.bind_eq_ok.1 hm
  cases hm
  exact ⟨rfl, .settled hround rfl rfl fun hnone => by simp [hnone]⟩

theorem shareRules_of_nextRecipient {recipient : Address} (h : g.nextRecipient = some recipient) :
    g.shareRules = none := by
  unfold nextRecipient at h
  cases hpolicy : g.policy with
  | rotation order next => rw [shareRules, hpolicy]
  | accumulate rules =>
    rw [hpolicy] at h
    cases h

theorem roundEnds_le_advanceCycle (g : GroupAccount) (at_ : Height) :
    g.roundEndsAtCycle ≤ (g.advanceCycle at_).roundEndsAtCycle := by
  cases hpolicy : g.policy with
  | rotation order next =>
    simp only [roundEndsAtCycle, shareRules, advanceCycle, advancePolicy, hpolicy]
    exact Fin.le_saturatingAdd _ _
  | accumulate rules =>
    simp only [roundEndsAtCycle, shareRules, advanceCycle, advancePolicy, hpolicy]
    exact le_refl _

theorem roundEnds_le_of_complete (h : g.roundComplete = true) (hstart : g.roundStartCycle ≤ g.cycle) :
    g.roundEndsAtCycle ≤ g.cycle := by
  obtain ⟨rules, hrules, hdone⟩ := (Option.any_eq_true _ _).1 h
  simp only [decide_eq_true_eq, cyclesThisRound, Fin.le_def, Fin.saturatingSub_val] at hdone hstart
  have hlt := g.cycle.isLt
  simp only [roundEndsAtCycle, hrules, Fin.le_def, Fin.saturatingAdd_val]
  omega

end GroupAccount

theorem GroupEdit.loanMoves
     (h : GroupEdit ctx sender a pot g msg g' payer payments)
    (hcount : g.members.length ≤ MAX_GROUP_MEMBERS) :
    List.Forall₂ (fun m m' => m'.address = m.address ∧ LoanMove g pot sender a msg m m') g.members g'.members := by
  have hrefl : ∀ (msg : Message) (m : Member), m.address = m.address ∧ LoanMove g pot sender a msg m m :=
    fun msg m => ⟨rfl, .kept (.refl m)⟩
  cases h with
  | contribute h =>
    obtain ⟨m, members, -, hrep, rfl⟩ := GroupAccount.recordContribution_eq_ok h
    exact hrep.forall₂ (hrefl _) ⟨rfl, .kept ⟨rfl, rfl, rfl⟩⟩
  | payout hr hdue =>
    -- a rotation levies no fines
    have hnone := GroupAccount.shareRules_of_nextRecipient hr
    simp only [GroupAccount.advanceCycle, hnone]
    refine List.forall₂_map_right_iff.2 (List.forall₂_same.2 fun m _ => ?_)
    exact ⟨GroupAccount.levyFine_address, .kept ⟨rfl, rfl, rfl⟩⟩
  | buyShares h =>
    obtain ⟨rules, m, m', members, -, hrep, hbuys, -, rfl⟩ := GroupAccount.buyShares_eq_ok h
    exact hrep.forall₂ (hrefl _) ⟨hrep.kept.trans hrep.address.symm, .kept hbuys.debts⟩
  | paySocial h =>
    obtain ⟨rules, m, members, fund, -, hrep, -, rfl⟩ := GroupAccount.paySocial_eq_ok h
    exact hrep.forall₂ (hrefl _) ⟨rfl, .kept ⟨rfl, rfl, rfl⟩⟩
  | propose h =>
    obtain ⟨rules, -, -, -, rfl⟩ := GroupAccount.openProposal_eq_ok h
    exact List.forall₂_same.2 fun m _ => hrefl _ m
  | approve h =>
    obtain ⟨-, p, -, -, -, rfl⟩ := GroupAccount.approve_eq_ok h
    exact List.forall₂_same.2 fun m _ => hrefl _ m
  | carryOut h hcarry =>
    obtain ⟨-, p, -, -, -, rfl⟩ := GroupAccount.approve_eq_ok h
    rcases Exec.carryOut_eq_ok hcarry with hloan | hgrant
    · obtain ⟨rules, p, gs, charge, due, m, members, hrules, -, -, -, hfund, -, hpasses, hrep, rfl⟩ :=
        GroupAccount.issueLoan_eq_ok hloan
      have hgrants := GroupAccount.Grants.of_approves (l := ⟨_, charge, 0, due, gs, false⟩) hcount hrules hrep.mem
        hfund ⟨rfl, rfl⟩ ⟨hpasses.none, hpasses.cover, hpasses.guarantors, hpasses.term⟩
      exact hrep.forall₂ (hrefl _) ⟨rfl, .made hgrants⟩
    · obtain ⟨p, fund, -, -, -, -, rfl⟩ := GroupAccount.issueGrant_eq_ok hgrant
      exact List.forall₂_same.2 fun m _ => hrefl _ m
  | repay h =>
    obtain ⟨m, m', members, l, owed, hrep, hl, howed, hle, hafter, hfines, hdefaults, -, rfl⟩ :=
      GroupAccount.repay_eq_ok h
    exact hrep.forall₂ (hrefl _) ⟨hrep.kept.trans hrep.address.symm, .repaid hl howed hle hafter hfines hdefaults⟩
  | close h hdue =>
    refine List.forall₂_map_right_iff.2 (List.forall₂_same.2 fun m _ => ⟨GroupAccount.levyFine_address, ?_⟩)
    simp only [GroupAccount.closeMember]
    rcases GroupAccount.levyFine_cases (g.shareRules.map (·.lateFineBps)) g.cycle _ with
      heq | ⟨l, fine, -, hl, hfirst, hlate, hunpaid, heq⟩
    · rw [heq]
      exact .kept ⟨rfl, rfl, rfl⟩
    · rw [heq]
      exact .fined hl hfirst hlate hunpaid rfl rfl
  | shareOut hfund h =>
    obtain ⟨rules, members, hrules, hround, hm, rfl⟩ := GroupAccount.shareOut_eq_ok h
    exact GroupAccount.settleMembers_loanMove (by simpa [GroupAccount.roundComplete, hrules] using hround) hm

theorem GroupEdit.round
     (h : GroupEdit ctx sender a pot g msg g' payer payments)
    (hstart : g.roundStartCycle ≤ g.cycle) : g'.roundStartCycle ≤ g'.cycle ∧
      (g.roundEndsAtCycle ≤ g'.roundEndsAtCycle ∨ ∀ m ∈ g'.members, m.loan = none) := by
  cases h.effect.2 with
  | kept _ hpolicy hcycle hsame =>
    rw [hcycle, hsame, GroupAccount.roundEndsAtCycle, GroupAccount.roundEndsAtCycle, GroupAccount.shareRules,
      GroupAccount.shareRules, hpolicy, hcycle, hsame]
    exact ⟨hstart, .inl le_rfl⟩
  | closed _ heq =>
    rw [heq]
    exact ⟨hstart.trans (Fin.le_saturatingAdd _ _), .inl (GroupAccount.roundEnds_le_advanceCycle g _)⟩
  | settled _ hcycle hnew hloans =>
    rw [hcycle, hnew]
    exact ⟨le_rfl, .inr hloans⟩

/-! ## Along a run -/

def Store.member (s : Store) (a x : Address) : Option Member := (s.group a).bind (·.member x)

def Store.loan (s : Store) (a x : Address) : Option Loan := (s.member a x).bind (·.loan)

/-- What holds of the loans of a group at any time. -/
structure GroupAccount.LoansSound (g : GroupAccount) : Prop where
  count : g.members.length ≤ MAX_GROUP_MEMBERS
  start : g.roundStartCycle ≤ g.cycle
  due : ∀ m ∈ g.members, ∀ l, m.loan = some l → l.dueCycle ≤ g.roundEndsAtCycle
  repaid : ∀ m ∈ g.members, ∀ l, m.loan = some l → l.repaid.val ≤ l.principal.val + l.serviceCharge.val

theorem Loan.repaid_le_of_outstanding {l : Loan} {owed amount : Amount} (h : l.outstanding = .ok owed)
    (hle : amount ≤ owed) (hrepaid : l.repaid.val ≤ l.principal.val + l.serviceCharge.val) :
    l.repaid.val + amount.val ≤ l.principal.val + l.serviceCharge.val := by
  obtain ⟨total, htotal, ho⟩ := Except.bind_eq_ok.1 h
  cases ho
  have htotal := Amount.checkedAdd_eq_ok.1 (orOverflow_eq_ok.1 htotal)
  have hle : amount.val ≤ total.val - l.repaid.val := hle
  omega

namespace LoanMove

variable {g : GroupAccount} {pot : Amount} {sender a : Address} {msg : Message} {m m' : Member} {l' : Loan}

theorem due_le (h : LoanMove g pot sender a msg m m') (hdue : ∀ l, m.loan = some l → l.dueCycle ≤ g.roundEndsAtCycle)
    (hl' : m'.loan = some l') : l'.dueCycle ≤ g.roundEndsAtCycle := by
  cases h with
  | kept h => exact hdue _ (h.loan ▸ hl')
  | made h =>
    cases hl'
    exact h.due
  | repaid hloan howed hle hafter hfines hdefaults =>
    rcases hafter with hnone | ⟨repaid, -, hsome⟩
    · cases hnone.symm.trans hl'
    · cases hsome.symm.trans hl'
      have hbefore := hdue _ hloan
      exact hbefore
  | fined hloan hfirst hlate hunpaid hafter hdefaults =>
    cases hafter.symm.trans hl'
    have hbefore := hdue _ hloan
    exact hbefore
  | settled hround hloan hfines hdefaults => cases hloan.symm.trans hl'

theorem repaid_le (h : LoanMove g pot sender a msg m m')
    (hrepaid : ∀ l, m.loan = some l → l.repaid.val ≤ l.principal.val + l.serviceCharge.val) (hl' : m'.loan = some l') :
    l'.repaid.val ≤ l'.principal.val + l'.serviceCharge.val := by
  cases h with
  | kept h => exact hrepaid _ (h.loan ▸ hl')
  | made h =>
    cases hl'
    rw [h.fresh.1]
    exact Nat.zero_le _
  | repaid hloan howed hle hafter hfines hdefaults =>
    rcases hafter with hnone | ⟨repaid, hval, hsome⟩
    · cases hnone.symm.trans hl'
    · cases hsome.symm.trans hl'
      exact hval ▸ Loan.repaid_le_of_outstanding howed hle (hrepaid _ hloan)
  | fined hloan hfirst hlate hunpaid hafter hdefaults =>
    cases hafter.symm.trans hl'
    exact hunpaid.le
  | settled hround hloan hfines hdefaults => cases hloan.symm.trans hl'

end LoanMove

theorem GroupEdit.loansSound
     (h : GroupEdit ctx sender a pot g msg g' payer payments)
    (hsound : g.LoansSound) : g'.LoansSound := by
  have hmoves := h.loanMoves hsound.count
  obtain ⟨hstart, hround⟩ := h.round hsound.start
  refine ⟨hmoves.length_eq ▸ hsound.count, hstart, fun m' hm' l' hl' => ?_, fun m' hm' l' hl' => ?_⟩
  · obtain ⟨m, hm, -, hmove⟩ := exists_of_forall₂ hmoves hm'
    rcases hround with hend | hnone
    · exact (hmove.due_le (hsound.due m hm) hl').trans hend
    · cases (hnone m' hm').symm.trans hl'
  · obtain ⟨m, hm, -, hmove⟩ := exists_of_forall₂ hmoves hm'
    exact hmove.repaid_le (hsound.repaid m hm) hl'

/-- What an event does to the member `x` of the group at `a`. -/
inductive MemberMove (a : Address) (s : Store) (ev : StoreEvent) : Option Member → Option Member → Prop where
  | same (m : Option Member) : MemberMove a s ev m m
  | lost (m : Option Member) : MemberMove a s ev m none
  | founded {m : Member} (h : m.loan = none) : MemberMove a s ev none (some m)
  | moved {m m' : Member} {g : GroupAccount} {ctx : BlockContext} {sender : Address} {msg : Message}
      (hev : ev = .message ctx sender msg) (hgroup : s.group a = some g) (hmem : m ∈ g.members) (hsound : g.LoansSound)
      (h : LoanMove g (s.holding a g.contribution.denom) sender a msg m m') : MemberMove a s ev (some m) (some m')

def Store.LoansSound (s : Store) : Prop := ∀ a g, s.group a = some g → g.LoansSound

section

variable [Crypto] {s s' : Store} {es : List StoreEvent}

omit [Crypto] in
theorem GroupAccount.new_loans {name : String} {members : List FoundingMember} {contribution : Contribution}
    {policy : PayoutPolicy} {quorum : Quorum} {at_ : Height} {g : GroupAccount}
    (h : GroupAccount.new name (members.map (·.intoMember 0)) contribution policy quorum at_ = .ok g) :
    g.LoansSound ∧ ∀ m ∈ g.members, m.loan = none := by
  obtain ⟨-, hcount, -, -, -, -, rfl⟩ := GroupAccount.new_eq_ok h
  have hnone : ∀ m ∈ members.map (·.intoMember 0), m.loan = none := by
    intro m hm
    obtain ⟨f, -, rfl⟩ := List.mem_map.1 hm
    rfl
  refine ⟨⟨hcount, le_refl _, fun m hm l hl => ?_, fun m hm l hl => ?_⟩, hnone⟩
  · cases (hnone m hm).symm.trans hl
  · cases (hnone m hm).symm.trans hl

theorem Emits.loansSound (h : Emits s es s') (hs : s.LoansSound) : s'.LoansSound := by
  intro a g' hg'
  obtain ⟨ev, rfl, hchange⟩ := h.groupChange a
  cases hchange with
  | quiet hev hgroup => exact hs a g' (hgroup ▸ hg')
  | lost hev hgroup => cases hgroup.symm.trans hg'
  | founded hbefore hafter hnew hmoney =>
    cases hafter.symm.trans hg'
    exact (GroupAccount.new_loans hnew).1
  | edited hedited =>
    cases hedited.after.symm.trans hg'
    exact hedited.edit.loansSound (hs a _ hedited.before)

theorem Emits.memberMove (h : Emits s es s') (hs : s.LoansSound) (a x : Address) :
    ∃ ev, es = [ev] ∧ MemberMove a s ev (s.member a x) (s'.member a x) := by
  obtain ⟨ev, rfl, hchange⟩ := h.groupChange a
  refine ⟨ev, rfl, ?_⟩
  cases hchange with
  | quiet hev hgroup =>
    simp only [Store.member, hgroup]
    exact .same _
  | lost hev hgroup =>
    simp only [Store.member, hgroup]
    exact .lost _
  | @founded ctx sender name members contribution policy quorum g hbefore hafter hnew hmoney =>
    simp only [Store.member, hbefore, hafter, Option.bind_none, Option.bind_some]
    cases hm : g.member x with
    | none => exact .same _
    | some m => exact .founded ((GroupAccount.new_loans hnew).2 m (List.mem_of_find?_eq_some hm))
  | @edited ctx sender payer msg g g' payments hedited =>
    have hsound := hs a g hedited.before
    simp only [Store.member, hedited.before, hedited.after, Option.bind_some, GroupAccount.member]
    rcases find_member_cases (hedited.edit.loanMoves hsound.count) x with ⟨hm, hm'⟩ | ⟨m, m', hm, hm', hmove⟩
    · rw [hm, hm']
      exact .same _
    · rw [hm, hm']
      exact .moved rfl hedited.before (List.mem_of_find?_eq_some hm) hsound hmove

end

theorem Genesis.apply_group [Crypto] [StateRoot] {g : Genesis} {limits : GenesisLimits} {b : Block} {start : Store}
    (h : Runs (g.apply limits) .empty b start) (a : Address) : start.group a = none := by
  rw [Store.group, Genesis.install_records (Genesis.install_of_apply h)]
  rfl

end AfroLink
