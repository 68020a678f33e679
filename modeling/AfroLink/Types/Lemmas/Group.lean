import AfroLink.Base.Effect
import AfroLink.Types.Group

/-!
# What the operations of a group do

One lemma an operation: what it needs to succeed, what it changes in the record and what it asks to be paid.
-/

namespace AfroLink

theorem orOverflow_eq_ok {α : Type} {r : Except PrimError α} {a : α} : orOverflow r = .ok a ↔ r = .ok a := by
  cases r <;> simp [orOverflow]

/-! ## Members -/

structure Member.SameDebts (m m' : Member) : Prop where
  loan : m'.loan = m.loan
  fines : m'.finesOwed = m.finesOwed
  defaults : m'.loansDefaulted = m.loansDefaulted

theorem Member.SameDebts.refl (m : Member) : m.SameDebts m := ⟨rfl, rfl, rfl⟩

/-- The member has the shares and the credit it had. -/
structure Member.SameSavings (m m' : Member) : Prop where
  made : m'.contributionsMade = m.contributionsMade
  missed : m'.contributionsMissed = m.contributionsMissed
  paid : m'.lastPaidCycle = m.lastPaidCycle
  shares : m'.shares = m.shares
  thisCycle : m'.sharesThisCycle = m.sharesThisCycle

theorem Member.SameSavings.refl (m : Member) : m.SameSavings m := ⟨rfl, rfl, rfl, rfl, rfl⟩

/-- What a purchase in `cycle` makes of the record of the buyer. The floor marks the cycle paid. -/
structure Member.Buys (cycle : U64) (rules : ShareRules) (n : U32) (m m' : Member) : Prop where
  debts : m.SameDebts m'
  shares : m'.shares = m.shares.saturatingAdd (u32To64 n)
  thisCycle : m'.sharesThisCycle = m.sharesThisCycle.saturatingAdd n
  within : m'.sharesThisCycle ≤ rules.maxShares
  missed : m'.contributionsMissed = m.contributionsMissed
  credit : rules.minShares ≤ m'.sharesThisCycle ∧ m.hasPaid cycle = false ∧
      m'.contributionsMade = m.contributionsMade.saturatingAdd 1 ∧ m'.lastPaidCycle = some cycle ∨
    m'.contributionsMade = m.contributionsMade ∧ m'.lastPaidCycle = m.lastPaidCycle

theorem nodup_of_sortDedup {l : List Address} (h : (sortDedup l).length = l.length) : l.Nodup := by
  have hs : (l.insertionSort (· ≤ ·)).Pairwise (· ≤ ·) := List.pairwise_insertionSort _ l
  have hlen : (l.insertionSort (· ≤ ·)).dedup.length = (l.insertionSort (· ≤ ·)).length := by
    rw [← hs.destutter_eq_dedup, List.length_insertionSort]
    exact h
  have heq := (List.dedup_sublist _).eq_of_length hlen
  exact (List.perm_insertionSort _ l).nodup_iff.1 (List.dedup_eq_self.1 heq)

theorem updateFirst_eq_ok {α β ε : Type} {p : α → Bool} {missing : ε} {f : α → Except ε (α × β)}
    {l l' : List α} {b : β} (h : updateFirst p missing f l = .ok (l', b)) :
    ∃ before a after a', l = before ++ a :: after ∧ p a = true ∧ f a = .ok (a', b) ∧
      l' = before ++ a' :: after := by
  induction l generalizing l' with
  | nil => cases h
  | cons c rest ih =>
    unfold updateFirst at h
    split at h
    · rename_i hp
      obtain ⟨⟨c', b'⟩, hf, h⟩ := Except.bind_eq_ok.1 h
      cases h
      exact ⟨[], c, rest, c', rfl, hp, hf, rfl⟩
    · obtain ⟨⟨rest', b'⟩, hr, h⟩ := Except.bind_eq_ok.1 h
      cases h
      obtain ⟨before, x, after, x', rfl, hp, hf, rfl⟩ := ih hr
      exact ⟨c :: before, x, after, x', rfl, hp, hf, rfl⟩

/-- The member `m` at `a` has become `m'`, the others are who they were. -/
structure Replaces (a : Address) (m m' : Member) (members members' : List Member) : Prop where
  split : ∃ before after, members = before ++ m :: after ∧ members' = before ++ m' :: after
  address : m.address = a
  kept : m'.address = a

namespace Replaces

variable {a : Address} {m m' x : Member} {members members' : List Member}

theorem mem (h : Replaces a m m' members members') : m ∈ members := by
  obtain ⟨before, after, rfl, -⟩ := h.split
  simp

theorem cases_mem (h : Replaces a m m' members members') (hx : x ∈ members') : x = m' ∨ x ∈ members := by
  obtain ⟨before, after, rfl, rfl⟩ := h.split
  simp only [List.mem_append, List.mem_cons] at hx ⊢
  tauto

theorem addresses (h : Replaces a m m' members members') : members'.map (·.address) = members.map (·.address) := by
  obtain ⟨before, after, rfl, rfl⟩ := h.split
  simp [h.address, h.kept]

end Replaces

namespace GroupAccount

variable {g g' : GroupAccount} {a : Address}

theorem isMember_iff : g.isMember a = true ↔ a ∈ g.members.map (·.address) := by
  simp only [isMember, member, List.find?_isSome, beq_iff_eq, List.mem_map]

theorem isMember_congr (h : g'.members.map (·.address) = g.members.map (·.address)) (a : Address) :
    g'.isMember a = g.isMember a := by
  rw [Bool.eq_iff_iff, isMember_iff, isMember_iff, h]

theorem length_le_members {l : List Address} (hl : l.Nodup) (h : ∀ x ∈ l, g.isMember x = true) :
    l.length ≤ g.members.length := by
  have hsub : l ⊆ g.members.map (·.address) := fun x hx => isMember_iff.1 (h x hx)
  simpa using (List.subperm_of_subset hl hsub).length_le

theorem shareRules_of_require {rules : ShareRules} (h : g.requireShareRules = .ok rules) :
    g.shareRules = some rules := by
  unfold requireShareRules at h
  split at h
  · cases h
    assumption
  · cases h

theorem updateMember_eq_ok {β : Type} {f : Member → Except GroupError (Member × β)} {b : β}
    (h : g.updateMember a f = .ok (g', b)) :
    ∃ before m after m', g.members = before ++ m :: after ∧ m.address = a ∧ f m = .ok (m', b) ∧
      g' = { g with members := before ++ m' :: after } := by
  obtain ⟨⟨members, b'⟩, hm, h⟩ := Except.bind_eq_ok.1 h
  cases h
  obtain ⟨before, m, after, m', hsplit, hp, hf, rfl⟩ := updateFirst_eq_ok hm
  exact ⟨before, m, after, m', hsplit, by simpa using hp, hf, rfl⟩

/-! ## Paying in -/

theorem recordContribution_eq_ok (h : g.recordContribution a = .ok g') :
    ∃ m members, m.hasPaid g.cycle = false ∧
      Replaces a m { m with contributionsMade := m.contributionsMade.saturatingAdd 1, lastPaidCycle := some g.cycle }
        g.members members ∧ g' = { g with members } := by
  obtain ⟨⟨g₁, u⟩, hu, h⟩ := Except.bind_eq_ok.1 h
  cases h
  obtain ⟨before, m, after, m', hsplit, ha, hf, rfl⟩ := updateMember_eq_ok hu
  split at hf
  · cases hf
  · rename_i hpaid
    cases hf
    exact ⟨m, _, by simpa using hpaid, ⟨⟨before, after, hsplit, rfl⟩, ha, ha⟩, rfl⟩

theorem buyShares_eq_ok {n : U32} {cost : Amount} (h : g.buyShares a n = .ok (g', cost)) :
    ∃ rules m m' members, g.shareRules = some rules ∧ Replaces a m m' g.members members ∧ m.Buys g.cycle rules n m' ∧
      cost.val = g.contribution.amount.val * n.val ∧ g' = { g with members } := by
  obtain ⟨rules, hrules, h⟩ := Except.bind_eq_ok.1 h
  obtain ⟨-, h⟩ := Except.guard_eq_ok.1 h
  obtain ⟨before, m, after, m', hsplit, ha, hf, rfl⟩ := updateMember_eq_ok h
  obtain ⟨hwithin, hf⟩ := Except.guard_eq_ok.1 hf
  obtain ⟨price, hprice, hf⟩ := Except.bind_eq_ok.1 hf
  have hprice : price.val = g.contribution.amount.val * n.val := Amount.checkedMul_eq_ok.1 (orOverflow_eq_ok.1 hprice)
  dsimp only at hf
  have hbuys : m'.address = m.address ∧ price = cost ∧ m.Buys g.cycle rules n m' := by
    split at hf
    · rename_i hfloor
      cases hf
      exact ⟨rfl, rfl, ⟨rfl, rfl, rfl⟩, rfl, rfl, not_lt.1 hwithin, rfl,
        .inl ⟨hfloor.1, by simpa [Member.hasPaid] using hfloor.2, rfl, rfl⟩⟩
    · cases hf
      exact ⟨rfl, rfl, ⟨rfl, rfl, rfl⟩, rfl, rfl, not_lt.1 hwithin, rfl, .inr ⟨rfl, rfl⟩⟩
  obtain ⟨hkept, rfl, hbuys⟩ := hbuys
  exact ⟨rules, m, m', _, shareRules_of_require hrules, ⟨⟨before, after, hsplit, rfl⟩, ha, hkept.trans ha⟩, hbuys, hprice,
    rfl⟩

variable {amount balance fund : Amount} {m : Member} {total closing : U64} {payments : List (Address × Amount)}
  {bps : Option U32}

theorem paySocial_eq_ok (h : g.paySocial a = .ok (g', amount)) :
    ∃ rules m members socialFund, g.shareRules = some rules ∧
      Replaces a m { m with socialPaidCycle := some g.cycle } g.members members ∧
      socialFund.val = g.socialFund.val + amount.val ∧ g' = { g with members, socialFund } := by
  obtain ⟨rules, hrules, h⟩ := Except.bind_eq_ok.1 h
  obtain ⟨-, h⟩ := Except.guard_eq_ok.1 h
  obtain ⟨⟨g₁, u⟩, hu, h⟩ := Except.bind_eq_ok.1 h
  obtain ⟨fund, hfund, h⟩ := Except.bind_eq_ok.1 h
  cases h
  obtain ⟨before, m, after, m', hsplit, ha, hf, rfl⟩ := updateMember_eq_ok hu
  split at hf
  · cases hf
  · cases hf
    exact ⟨rules, m, _, fund, shareRules_of_require hrules, ⟨⟨before, after, hsplit, rfl⟩, ha, ha⟩,
      Amount.checkedAdd_eq_ok.1 (orOverflow_eq_ok.1 hfund), rfl⟩

theorem repay_eq_ok (h : g.repay a amount = .ok g') :
    ∃ m m' members loan owed, Replaces a m m' g.members members ∧ m.loan = some loan ∧ loan.outstanding = .ok owed ∧
      amount ≤ owed ∧ (m'.loan = none ∨ ∃ repaid, repaid.val = loan.repaid.val + amount.val ∧
        m'.loan = some { loan with repaid }) ∧ m'.finesOwed = m.finesOwed ∧ m'.loansDefaulted = m.loansDefaulted ∧
      m.SameSavings m' ∧ g' = { g with members } := by
  unfold repay at h
  obtain ⟨-, h⟩ := Except.guard_eq_ok.1 h
  obtain ⟨⟨g₁, u⟩, hu, h⟩ := Except.bind_eq_ok.1 h
  cases h
  obtain ⟨before, m, after, m', hsplit, ha, hf, rfl⟩ := updateMember_eq_ok hu
  split at hf
  swap
  · cases hf
  rename_i loan hloan
  obtain ⟨owed, howed, hf⟩ := Except.bind_eq_ok.1 hf
  obtain ⟨hle, hf⟩ := Except.guard_eq_ok.1 hf
  obtain ⟨repaid, hrepaid, hf⟩ := Except.bind_eq_ok.1 hf
  have hrepaid := Amount.checkedAdd_eq_ok.1 (orOverflow_eq_ok.1 hrepaid)
  dsimp only at hf
  have hkept : m'.address = m.address ∧ (m'.loan = none ∨ ∃ repaid, repaid.val = loan.repaid.val + amount.val ∧
      m'.loan = some { loan with repaid }) ∧ m'.finesOwed = m.finesOwed ∧ m'.loansDefaulted = m.loansDefaulted ∧
      m.SameSavings m' := by
    split at hf
    · cases hf
      exact ⟨rfl, .inl rfl, rfl, rfl, rfl, rfl, rfl, rfl, rfl⟩
    · cases hf
      exact ⟨rfl, .inr ⟨repaid, hrepaid, rfl⟩, rfl, rfl, rfl, rfl, rfl, rfl, rfl⟩
  obtain ⟨hkept, hafter, hfines, hdefaults, hsavings⟩ := hkept
  exact ⟨m, m', _, loan, owed, ⟨⟨before, after, hsplit, rfl⟩, ha, hkept.trans ha⟩, hloan, howed, not_lt.1 hle,
    hafter, hfines, hdefaults, hsavings, rfl⟩

/-! ## Proposals -/

theorem lendable_eq_ok :
    g.lendable balance = .ok fund ↔ g.socialFund.val ≤ balance.val ∧ fund.val = balance.val - g.socialFund.val := by
  unfold lendable
  rw [orOverflow_eq_ok, Amount.checkedSub_eq_ok]

theorem checkGuarantors_eq_ok {borrower : Address} {guarantors : List Address} {required : U32}
    (h : g.checkGuarantors borrower guarantors required = .ok ()) :
    min guarantors.length (2 ^ 32 - 1) = required.val ∧ guarantors.Nodup ∧
      ∀ x ∈ guarantors, x ≠ borrower ∧ g.isMember x = true := by
  unfold checkGuarantors at h
  simp only at h
  split_ifs at h with hcount hdup hbad
  simp only [not_not, List.any_eq_true, not_exists, not_and, Bool.or_eq_true, beq_iff_eq, Bool.not_eq_true',
    not_or, Bool.not_eq_false] at hcount hdup hbad
  exact ⟨congrArg Fin.val hcount, nodup_of_sortDedup hdup, hbad⟩

theorem length_guarantors {borrower : Address} {guarantors : List Address} {required : U32}
    (h : g.checkGuarantors borrower guarantors required = .ok ()) (hb : g.isMember borrower = true) :
    guarantors.length < g.members.length := by
  obtain ⟨-, hdistinct, hothers⟩ := checkGuarantors_eq_ok h
  have hnodup : (borrower :: guarantors).Nodup :=
    List.nodup_cons.2 ⟨fun hmem => (hothers borrower hmem).1 rfl, hdistinct⟩
  have hle := length_le_members (g := g) hnodup fun x hx => by
    rcases List.mem_cons.1 hx with rfl | hx
    · exact hb
    · exact (hothers x hx).2
  simpa using hle

theorem checkTermFits_eq_ok {rules : ShareRules} {due : U64} (h : g.checkTermFits rules = .ok due) :
    due ≤ g.roundEndsAtCycle := by
  unfold checkTermFits at h
  simp only at h
  split_ifs at h with hlate
  cases h
  exact not_lt.1 hlate

theorem openProposal_eq_ok {beneficiary : Address} {kind : GroupProposalKind}
    (h : g.openProposal beneficiary kind balance = .ok g') : ∃ rules, g.shareRules = some rules ∧ g.pending = none ∧
      (∀ x guarantors, kind = .loan x guarantors → guarantors.length < g.members.length) ∧
      g' = { g with pending := some { beneficiary, kind, approvals := [], openedCycle := g.cycle } } := by
  obtain ⟨rules, hrules, h⟩ := Except.bind_eq_ok.1 h
  obtain ⟨hnone, h⟩ := Except.guard_eq_ok.1 h
  have hnone : g.pending = none := by simpa using hnone
  split at h
  swap
  · cases h
  rename_i member hmem
  have hb : g.isMember beneficiary = true := by simp [isMember, hmem]
  cases kind with
  | socialGrant amount =>
    obtain ⟨-, h⟩ := Except.guard_eq_ok.1 h
    obtain ⟨-, h⟩ := Except.guard_eq_ok.1 h
    cases h
    exact ⟨rules, shareRules_of_require hrules, hnone, nofun, rfl⟩
  | loan principal guarantors =>
    obtain ⟨-, h⟩ := Except.guard_eq_ok.1 h
    obtain ⟨-, h⟩ := Except.guard_eq_ok.1 h
    obtain ⟨held, -, h⟩ := Except.bind_eq_ok.1 h
    obtain ⟨needed, -, h⟩ := Except.bind_eq_ok.1 h
    obtain ⟨-, h⟩ := Except.guard_eq_ok.1 h
    obtain ⟨u, hgs, h⟩ := Except.bind_eq_ok.1 h
    obtain ⟨due, -, h⟩ := Except.bind_eq_ok.1 h
    obtain ⟨lendable, -, h⟩ := Except.bind_eq_ok.1 h
    obtain ⟨-, h⟩ := Except.guard_eq_ok.1 h
    cases h
    refine ⟨rules, shareRules_of_require hrules, hnone, ?_, rfl⟩
    rintro x gs ⟨⟩
    exact length_guarantors hgs hb

theorem approve_eq_ok {passed : Bool} (h : g.approve a = .ok (g', passed)) :
    g.isMember a = true ∧ ∃ p, g.pending = some p ∧ a ∉ p.approvals ∧
      passed = decide (g.approvalsRequired ≤ p.approvals.length + 1) ∧
      g' = { g with pending := some { p with approvals := p.approvals.orderedInsert (· ≤ ·) a } } := by
  unfold approve at h
  obtain ⟨hm, h⟩ := Except.guard_eq_ok.1 h
  split at h
  swap
  · cases h
  rename_i p hp
  obtain ⟨p', hp', h⟩ := Except.bind_eq_ok.1 h
  cases h
  unfold GroupProposal.approve at hp'
  split_ifs at hp' with hnew
  cases hp'
  exact ⟨by simpa using hm, p, hp, hnew, by simp [List.orderedInsert_length], rfl⟩

/-- The checks a loan to `m` passes when it is issued. -/
structure Approves (g : GroupAccount) (rules : ShareRules) (m : Member) (principal : Amount)
    (guarantors : List Address) (due : U64) : Prop where
  none : m.loan = none
  cover : ∃ required, rules.coverRequiredFor principal = .ok required ∧
    required.val ≤ g.contribution.amount.val * m.shares.val
  guarantors : g.checkGuarantors m.address guarantors rules.requiredGuarantors = .ok ()
  term : g.checkTermFits rules = .ok due

theorem issueLoan_eq_ok {payee : Address} (h : g.issueLoan balance = .ok (g', payee, amount)) :
    ∃ rules p guarantors charge due m members, g.shareRules = some rules ∧ g.pending = some p ∧
      p.kind = .loan amount guarantors ∧ payee = p.beneficiary ∧ g.socialFund.val + amount.val ≤ balance.val ∧
      rules.serviceChargeOn amount = .ok charge ∧ g.Approves rules m amount guarantors due ∧
      Replaces payee m { m with loan := some ⟨amount, charge, 0, due, guarantors, false⟩ } g.members members ∧
      g' = { g with members, pending := none } := by
  obtain ⟨rules, hrules, h⟩ := Except.bind_eq_ok.1 h
  split at h
  swap
  · cases h
  rename_i p hp
  split at h
  swap
  · cases h
  rename_i principal guarantors hk
  obtain ⟨fund, hfund, h⟩ := Except.bind_eq_ok.1 h
  obtain ⟨hshort, h⟩ := Except.guard_eq_ok.1 h
  obtain ⟨u, hgs, h⟩ := Except.bind_eq_ok.1 h
  obtain ⟨charge, hcharge, h⟩ := Except.bind_eq_ok.1 h
  obtain ⟨due, hdue, h⟩ := Except.bind_eq_ok.1 h
  obtain ⟨needed, hneeded, h⟩ := Except.bind_eq_ok.1 h
  obtain ⟨⟨g₁, u⟩, hu, h⟩ := Except.bind_eq_ok.1 h
  cases h
  obtain ⟨before, m, after, m', hsplit, ha, hf, rfl⟩ := updateMember_eq_ok hu
  obtain ⟨hnone, hf⟩ := Except.guard_eq_ok.1 hf
  obtain ⟨held, hheld, hf⟩ := Except.bind_eq_ok.1 hf
  obtain ⟨hcover, hf⟩ := Except.guard_eq_ok.1 hf
  cases hf
  have hheld : held.val = g.contribution.amount.val * m.shares.val :=
    Amount.checkedMul_eq_ok.1 (orOverflow_eq_ok.1 hheld)
  have hcover : needed.val ≤ held.val := not_lt.1 hcover
  obtain ⟨hle, hval⟩ := lendable_eq_ok.1 hfund
  have hshort : amount.val ≤ fund.val := not_lt.1 hshort
  exact ⟨rules, p, guarantors, charge, due, m, _, shareRules_of_require hrules, hp, hk, rfl, by omega, hcharge,
    ⟨by simpa using hnone, ⟨needed, hneeded, hheld ▸ hcover⟩, ha ▸ hgs, hdue⟩, ⟨⟨before, after, hsplit, rfl⟩, ha, ha⟩,
    rfl⟩

theorem issueGrant_eq_ok {payee : Address} (h : g.issueGrant = .ok (g', payee, amount)) :
    ∃ p socialFund, g.pending = some p ∧ p.kind = .socialGrant amount ∧ payee = p.beneficiary ∧
      socialFund.val + amount.val = g.socialFund.val ∧ g' = { g with socialFund, pending := none } := by
  unfold issueGrant at h
  split at h
  swap
  · cases h
  rename_i p hp
  split at h
  swap
  · cases h
  rename_i x hk
  split at h
  · rename_i fund hfund
    cases h
    obtain ⟨hle, hval⟩ := Amount.checkedSub_eq_ok.1 hfund
    exact ⟨p, fund, hp, hk, rfl, by omega, rfl⟩
  · cases h

/-! ## Share-outs -/

theorem settleMember_eq_ok {net : Amount} {m' : Member} (h : settleMember fund total m = .ok (m', net)) :
    m'.address = m.address ∧ m'.loan = none ∧ net.val ≤ fund.val * m.shares.val / total.val := by
  obtain ⟨gross, hgross, h⟩ := Except.bind_eq_ok.1 h
  obtain ⟨owed, -, h⟩ := Except.bind_eq_ok.1 h
  cases h
  obtain ⟨-, hval⟩ := Amount.mulRatio_eq_ok (orOverflow_eq_ok.1 hgross)
  refine ⟨rfl, rfl, ?_⟩
  rw [Fin.saturatingSub_val]
  exact (Nat.sub_le _ _).trans hval.le

def sharesHeld (members : List Member) : ℕ := (members.map fun m => m.shares.val).sum

theorem settleMembers_eq_ok {ms ms' : List Member} (h : settleMembers fund total ms = .ok (ms', payments)) :
    ms'.map (·.address) = ms.map (·.address) ∧ (∀ m ∈ ms', m.loan = none) ∧
      (payments.map (·.2.val)).sum ≤ fund.val * sharesHeld ms / total.val := by
  induction ms generalizing ms' payments with
  | nil =>
    cases h
    exact ⟨rfl, by simp, by simp⟩
  | cons m rest ih =>
    obtain ⟨⟨m', net⟩, hm, h⟩ := Except.bind_eq_ok.1 h
    obtain ⟨⟨rest', payments'⟩, hr, h⟩ := Except.bind_eq_ok.1 h
    cases h
    obtain ⟨ha, hl, hnet⟩ := settleMember_eq_ok hm
    obtain ⟨hra, hrl, hsum⟩ := ih hr
    refine ⟨by simp [ha, hra], fun x hx => ?_, ?_⟩
    · rcases List.mem_cons.1 hx with rfl | hx
      · exact hl
      · exact hrl x hx
    · have hparts : net.val + (payments'.map (·.2.val)).sum ≤ fund.val * sharesHeld (m :: rest) / total.val := by
        refine (Nat.add_le_add hnet hsum).trans (Nat.div_add_div_le_add_div.trans_eq ?_)
        rw [← Nat.mul_add]
        rfl
      split
      · exact (Nat.le_add_left _ _).trans hparts
      · exact hparts

theorem settleMembers_forall₂ {ms ms' : List Member} (h : settleMembers fund total ms = .ok (ms', payments)) :
    List.Forall₂ (fun m m' => ∃ net, settleMember fund total m = .ok (m', net)) ms ms' := by
  induction ms generalizing ms' payments with
  | nil =>
    cases h
    exact .nil
  | cons m rest ih =>
    obtain ⟨⟨m', net⟩, hm, h⟩ := Except.bind_eq_ok.1 h
    obtain ⟨⟨rest', payments'⟩, hr, h⟩ := Except.bind_eq_ok.1 h
    cases h
    exact .cons ⟨net, hm⟩ (ih hr)

theorem totalShares_val (g : GroupAccount) : g.totalShares.val = min (sharesHeld g.members) (2 ^ 64 - 1) := by
  have hfold : ∀ (ms : List Member) (x : U64), (ms.foldl (fun sum m => sum.saturatingAdd m.shares) x).val =
      min (x.val + sharesHeld ms) (2 ^ 64 - 1) := by
    intro ms
    induction ms with
    | nil =>
      intro x
      have := x.isLt
      simp only [List.foldl_nil, sharesHeld, List.map_nil, List.sum_nil]
      omega
    | cons m rest ih =>
      intro x
      rw [List.foldl_cons, ih, Fin.saturatingAdd_val]
      simp only [sharesHeld, List.map_cons, List.sum_cons]
      omega
  rw [totalShares, hfold]
  simp

theorem shareOut_eq_ok (h : g.shareOut fund = .ok (g', payments)) :
    ∃ rules members, g.shareRules = some rules ∧ rules.cyclesPerRound ≤ g.cyclesThisRound ∧
      settleMembers fund g.totalShares g.members = .ok (members, payments) ∧
      g' = { g with members, round := g.round.saturatingAdd 1, roundStartCycle := g.cycle, pending := none } := by
  obtain ⟨rules, hrules, h⟩ := Except.bind_eq_ok.1 h
  obtain ⟨hround, h⟩ := Except.guard_eq_ok.1 h
  obtain ⟨-, h⟩ := Except.guard_eq_ok.1 h
  obtain ⟨-, h⟩ := Except.guard_eq_ok.1 h
  obtain ⟨⟨members, payments'⟩, hm, h⟩ := Except.bind_eq_ok.1 h
  cases h
  have hrules := shareRules_of_require hrules
  refine ⟨rules, members, hrules, ?_, hm, rfl⟩
  simpa [roundComplete, hrules] using hround

/-! ## Cycles -/

theorem levyFine_cases (bps : Option U32) (closing : U64) (m : Member) :
    levyFine bps closing m = m ∨ ∃ l fine, bps.isSome = true ∧ m.loan = some l ∧ l.fined = false ∧
      l.dueCycle ≤ closing ∧ l.repaid.val < l.principal.val + l.serviceCharge.val ∧
      levyFine bps closing m =
        { m with loan := some { l with fined := true }, finesOwed := Fin.saturatingAdd m.finesOwed fine } := by
  unfold levyFine
  split
  swap
  · exact .inl rfl
  rename_i bps l hloan
  split
  swap
  · exact .inl rfl
  rename_i hlate
  split
  swap
  · exact .inl rfl
  rename_i fine hfine
  obtain ⟨owed, howed, -⟩ := Except.bind_eq_ok.1 hfine
  simp only [Loan.isOverdue, Loan.isSettled, howed, Bool.and_eq_true, Bool.not_eq_true', decide_eq_true_eq,
    Amount.isZero, beq_eq_false_iff_ne] at hlate
  obtain ⟨total, htotal, ho⟩ := Except.bind_eq_ok.1 howed
  cases ho
  have htotal := Amount.checkedAdd_eq_ok.1 (orOverflow_eq_ok.1 htotal)
  have hunpaid := hlate.2.2
  rw [Fin.saturatingSub_val] at hunpaid
  exact .inr ⟨l, fine, rfl, hloan, hlate.1, hlate.2.1, by omega, rfl⟩

@[simp] theorem levyFine_address : (levyFine bps closing m).address = m.address := by
  rcases levyFine_cases bps closing m with h | ⟨l, fine, -, -, -, -, -, h⟩
  · rw [h]
  · rw [h]

theorem levyFine_savings : m.SameSavings (levyFine bps closing m) := by
  rcases levyFine_cases bps closing m with h | ⟨l, fine, -, -, -, -, -, h⟩
  · rw [h]
    exact .refl m
  · rw [h]
    exact ⟨rfl, rfl, rfl, rfl, rfl⟩

@[simp] theorem advanceCycle_addresses (g : GroupAccount) (at_ : Height) :
    (g.advanceCycle at_).members.map (·.address) = g.members.map (·.address) := by
  simp only [advanceCycle, List.map_map]
  exact List.map_congr_left fun m _ => levyFine_address

/-! ## Founding -/

theorem new_eq_ok {name : String} {members : List Member} {contribution : Contribution} {policy : PayoutPolicy}
    {quorum : Quorum} {openedAt : Height} (h : new name members contribution policy quorum openedAt = .ok g) :
    name.utf8ByteSize ≤ 64 ∧ members.length ≤ MAX_GROUP_MEMBERS ∧ contribution.amount ≠ 0 ∧
      (members.map (·.address)).Nodup ∧
      (0 < quorum.denominator.val ∧ quorum.numerator ≤ quorum.denominator) ∧ checkPolicy members policy = .ok () ∧
      g = { name, members, contribution, policy, quorum, cycle := 0, cycleStarted := openedAt, round := 0,
            roundStartCycle := 0, socialFund := 0, pending := none } := by
  unfold new at h
  obtain ⟨hname, h⟩ := Except.guard_eq_ok.1 h
  obtain ⟨-, h⟩ := Except.guard_eq_ok.1 h
  obtain ⟨hcount, h⟩ := Except.guard_eq_ok.1 h
  obtain ⟨hamount, h⟩ := Except.guard_eq_ok.1 h
  obtain ⟨hdup, h⟩ := Except.guard_eq_ok.1 h
  obtain ⟨-, h⟩ := Except.guard_eq_ok.1 h
  obtain ⟨quorum', hquorum, h⟩ := Except.bind_eq_ok.1 h
  obtain ⟨u, hpolicy, h⟩ := Except.bind_eq_ok.1 h
  cases h
  unfold Quorum.validate at hquorum
  split_ifs at hquorum with hbad
  cases hquorum
  rw [not_or, not_or, not_lt] at hbad
  refine ⟨not_lt.1 (not_or.1 hname).2, not_lt.1 hcount, by simpa [Amount.isZero] using hamount, nodup_of_sortDedup (by simpa using hdup),
    ⟨Nat.pos_of_ne_zero fun hzero => hbad.1 (Fin.ext hzero), hbad.2.1⟩, hpolicy, rfl⟩

theorem checkRotation_eq_ok {members : List Member} {order : List Address} {next : U32}
    (h : checkRotation members order next = .ok ()) :
    order.length = members.length ∧ order.Nodup ∧ (∀ x, x ∈ order ↔ x ∈ members.map (·.address)) ∧
      next.val < order.length := by
  unfold checkRotation at h
  simp only at h
  split_ifs at h with hlen hsame hnext
  rw [not_or, not_not, not_not] at hsame
  refine ⟨not_not.1 hlen, nodup_of_sortDedup hsame.1, fun x => ?_, not_le.1 hnext⟩
  rw [← mem_sortDedup, hsame.2, mem_sortDedup]

end GroupAccount

end AfroLink
