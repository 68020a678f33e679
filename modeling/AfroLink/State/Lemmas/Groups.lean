import AfroLink.State.Lemmas.Records
import AfroLink.Types.Lemmas.Group

/-!
# Group records stay readable

Every operation on a group keeps the facts its decoder checks.
-/

namespace AfroLink

/-! ## What the decoder accepts -/

structure Loan.Sound (l : Loan) : Prop where
  total : l.principal.val + l.serviceCharge.val < 2 ^ 128
  repaid : l.repaid.val ≤ l.principal.val + l.serviceCharge.val
  guarantors : l.guarantors.length < MAX_GROUP_MEMBERS

theorem Loan.decodeError_eq_none {l : Loan} : l.decodeError = none ↔ l.Sound := by
  simp only [decodeError, firstError_cons_eq_none, firstError_nil, refuse_eq_none, tooLong_eq_none, not_le, not_lt,
    gt_iff_lt, ge_iff_le]
  constructor
  · rintro ⟨-, ht, hr, hg, -⟩
    exact ⟨ht, hr, hg⟩
  · rintro ⟨ht, hr, hg⟩
    exact ⟨hg.le.trans (by decide), ht, hr, hg, trivial⟩

structure GroupProposal.Sound (p : GroupProposal) : Prop where
  guarantors : ∀ x gs, p.kind = .loan x gs → gs.length ≤ MAX_FIELD_LEN
  sorted : p.approvals.Pairwise (· < ·)
  count : p.approvals.length ≤ MAX_GROUP_MEMBERS

theorem GroupProposal.decodeError_eq_none {p : GroupProposal} : p.decodeError = none ↔ p.Sound := by
  simp only [decodeError, firstError_cons_eq_none, firstError_nil, refuse_eq_none, tooLong_eq_none,
    List.isChain_iff_pairwise, not_not, not_lt, gt_iff_lt]
  constructor
  · rintro ⟨hk, -, hs, hc, -⟩
    refine ⟨fun x gs h => ?_, hs, hc⟩
    rw [h] at hk
    exact tooLong_eq_none.1 hk
  · rintro ⟨hk, hs, hc⟩
    refine ⟨?_, hc.trans (by decide), hs, hc, trivial⟩
    split
    · exact tooLong_eq_none.2 (hk _ _ ‹_›)
    · rfl

namespace GroupAccount

structure Sound (g : GroupAccount) : Prop where
  name : (utf8Bytes g.name).length ≤ MAX_FIELD_LEN
  loans : ∀ m ∈ g.members, ∀ l, m.loan = some l → l.Sound
  policy : g.policy.decodeError = none
  pending : ∀ p, g.pending = some p → p.Sound
  approvals : ∀ p, g.pending = some p → ∀ x ∈ p.approvals, g.isMember x = true
  count : g.members.length ≤ MAX_GROUP_MEMBERS
  round : g.roundStartCycle ≤ g.cycle

theorem sound_iff {g : GroupAccount} :
    g.Sound ↔ g.decodeError = none ∧ ∀ p, g.pending = some p → ∀ x ∈ p.approvals, g.isMember x = true := by
  simp only [decodeError, firstError_cons_eq_none, firstError_nil, refuse_eq_none, tooLong_eq_none,
    firstError_map_eq_none, not_lt, gt_iff_lt, Option.bind_eq_none_iff, Loan.decodeError_eq_none,
    GroupProposal.decodeError_eq_none]
  constructor
  · rintro ⟨hn, hl, hp, hg, ha, hc, hr⟩
    exact ⟨⟨hn, hc.trans (by decide), hl, hp, hg, hc, hr, trivial⟩, ha⟩
  · rintro ⟨⟨hn, -, hl, hp, hg, hc, hr, -⟩, ha⟩
    exact ⟨hn, hl, hp, hg, ha, hc, hr⟩

variable {g g' : GroupAccount} {a : Address}

variable {members : List Member} {amount balance : Amount} {payee : Address}

theorem Sound.withMembers (h : g.Sound) (ha : members.map (·.address) = g.members.map (·.address))
    (hl : ∀ m ∈ members, ∀ l, m.loan = some l → l.Sound) : { g with members }.Sound := by
  refine ⟨h.name, hl, h.policy, h.pending, fun p hp x hx => ?_, ?_, h.round⟩
  · rw [isMember_congr (g := g) ha]
    exact h.approvals p hp x hx
  · have hlen := congrArg List.length ha
    simp only [List.length_map] at hlen
    exact hlen.trans_le h.count

theorem Sound.replace {m m' : Member} (h : g.Sound)
    (hrep : Replaces a m m' g.members members) (hl : ∀ l, m'.loan = some l → l.Sound) : { g with members }.Sound := by
  refine h.withMembers hrep.addresses fun x hx l hxl => ?_
  rcases hrep.cases_mem hx with rfl | hx
  · exact hl l hxl
  · exact h.loans x hx l hxl

/-! ## Operations -/

theorem Sound.recordContribution (h : g.Sound) (hg : g.recordContribution a = .ok g') : g'.Sound := by
  obtain ⟨m, members, -, hrep, rfl⟩ := recordContribution_eq_ok hg
  exact h.replace hrep (h.loans m hrep.mem)

theorem Sound.buyShares {shares : U32} {cost : Amount} (h : g.Sound)
    (hg : g.buyShares a shares = .ok (g', cost)) : g'.Sound := by
  obtain ⟨rules, m, m', members, -, hrep, hbuys, -, rfl⟩ := buyShares_eq_ok hg
  exact h.replace hrep (hbuys.debts.loan ▸ h.loans m hrep.mem)

theorem Sound.paySocial (h : g.Sound) (hg : g.paySocial a = .ok (g', amount)) : g'.Sound := by
  obtain ⟨rules, m, members, fund, -, hrep, -, rfl⟩ := paySocial_eq_ok hg
  have h₁ := h.replace hrep (h.loans m hrep.mem)
  exact ⟨h₁.name, h₁.loans, h₁.policy, h₁.pending, h₁.approvals, h₁.count, h₁.round⟩

theorem Sound.openProposal {beneficiary : Address} {kind : GroupProposalKind} (h : g.Sound)
    (hg : g.openProposal beneficiary kind balance = .ok g') : g'.Sound := by
  obtain ⟨rules, -, -, hguarantors, rfl⟩ := openProposal_eq_ok hg
  refine ⟨h.name, h.loans, h.policy, ?_, ?_, h.count, h.round⟩
  · rintro p ⟨⟩
    exact ⟨fun x gs hk => (hguarantors x gs hk).le.trans (h.count.trans (by decide)), .nil, by simp⟩
  · rintro p ⟨⟩ x hx
    simp at hx

theorem Sound.approve {passed : Bool} (h : g.Sound) (hg : g.approve a = .ok (g', passed)) : g'.Sound := by
  obtain ⟨hm, p, hp, hnew, -, rfl⟩ := approve_eq_ok hg
  have hsorted : (p.approvals.orderedInsert (· ≤ ·) a).Pairwise (· < ·) :=
    (h.pending p hp).sorted.orderedInsert_lt (fun x => x) fun x hx hxa => hnew (hxa ▸ hx)
  have hmembers : ∀ x ∈ p.approvals.orderedInsert (· ≤ ·) a, g.isMember x = true := by
    intro x hx
    rcases List.mem_orderedInsert _ |>.1 hx with rfl | hx
    · exact hm
    · exact h.approvals p hp x hx
  refine ⟨h.name, h.loans, h.policy, ?_, ?_, h.count, h.round⟩
  · rintro q ⟨⟩
    exact ⟨(h.pending p hp).guarantors, hsorted,
      (length_le_members (hsorted.imp fun h => h.ne) hmembers).trans h.count⟩
  · rintro q ⟨⟩ x hx
    exact hmembers x hx

/-- The loan waiting for approval, with its service charge, is still an amount. -/
def pendingLoanFits (g : GroupAccount) : Bool :=
  match g.pending.map GroupProposal.kind, g.shareRules with
  | some (.loan principal _), some rules =>
    match rules.serviceChargeOn principal with
    | .ok charge => principal.val + charge.val < 2 ^ 128
    | .error _ => true
  | _, _ => true

theorem Sound.issueLoan (h : g.Sound) (hfits : g.pendingLoanFits = true)
    (hg : g.issueLoan balance = .ok (g', payee, amount)) : g'.Sound := by
  obtain ⟨rules, p, gs, charge, due, m, members, hrules, hp, hk, -, -, hcharge, hpasses, hrep, rfl⟩ :=
    issueLoan_eq_ok hg
  have hgs := length_guarantors hpasses.guarantors (isMember_iff.2 (List.mem_map.2 ⟨m, hrep.mem, rfl⟩))
  have htotal : amount.val + charge.val < 2 ^ 128 := by
    simpa [pendingLoanFits, hp, hk, hrules, hcharge] using hfits
  have h₁ := h.replace hrep (by
    rintro l ⟨⟩
    exact ⟨htotal, by simp, hgs.trans_le h.count⟩)
  exact ⟨h₁.name, h₁.loans, h₁.policy, nofun, nofun, h₁.count, h₁.round⟩

theorem Sound.issueGrant (h : g.Sound) (hg : g.issueGrant = .ok (g', payee, amount)) : g'.Sound := by
  obtain ⟨p, fund, -, -, -, -, rfl⟩ := issueGrant_eq_ok hg
  exact ⟨h.name, h.loans, h.policy, nofun, nofun, h.count, h.round⟩

theorem Sound.repay (h : g.Sound) (hg : g.repay a amount = .ok g') : g'.Sound := by
  obtain ⟨m, m', members, loan, owed, hrep, hloan, howed, hle, hnew, -, -, -, rfl⟩ := repay_eq_ok hg
  have hs := h.loans m hrep.mem loan hloan
  refine h.replace hrep fun l hl => ?_
  rcases hnew with hnew | ⟨repaid, hrepaid, hnew⟩
  · cases hnew.symm.trans hl
  · cases hnew.symm.trans hl
    refine ⟨hs.total, ?_, hs.guarantors⟩
    -- what is owed is the total less what has been repaid, and the payment is within it
    obtain ⟨total, htotal, ho⟩ := Except.bind_eq_ok.1 howed
    cases ho
    have ht := Amount.checkedAdd_eq_ok.1 (orOverflow_eq_ok.1 htotal)
    have hle : amount.val ≤ total.val - loan.repaid.val := hle
    have := hs.repaid
    simp only
    omega

theorem Sound.shareOut {fund : Amount} {payments : List (Address × Amount)} (h : g.Sound)
    (hg : g.shareOut fund = .ok (g', payments)) : g'.Sound := by
  obtain ⟨rules, members, -, -, hm, rfl⟩ := shareOut_eq_ok hg
  obtain ⟨ha, hl, -⟩ := settleMembers_eq_ok hm
  have h₁ := h.withMembers ha fun m hm l hml => by simp [hl m hm] at hml
  exact ⟨h₁.name, h₁.loans, h₁.policy, nofun, nofun, h₁.count, le_refl g.cycle⟩

/-- Closing a cycle may fine a loan, which changes neither what it is worth nor what was repaid. -/
theorem levyFine_sound {bps : Option U32} {closing : U64} {m : Member} (h : ∀ l, m.loan = some l → l.Sound) :
    ∀ l, (levyFine bps closing m).loan = some l → l.Sound := by
  rcases levyFine_cases bps closing m with heq | ⟨l₀, fine, -, hloan, -, -, -, heq⟩
  · rw [heq]
    exact h
  · rw [heq]
    rintro l ⟨⟩
    have hs := h l₀ hloan
    exact ⟨hs.total, hs.repaid, hs.guarantors⟩

theorem Sound.advanceCycle (h : g.Sound) (at_ : Height) : (g.advanceCycle at_).Sound := by
  have h₁ := h.withMembers (advanceCycle_addresses g at_) fun m hm => by
    obtain ⟨m₀, hm₀, rfl⟩ := List.mem_map.1 hm
    exact levyFine_sound (h.loans m₀ hm₀)
  have hpending : ∀ p, (g.advanceCycle at_).pending = some p → g.pending = some p := by
    intro p hp
    simp only [GroupAccount.advanceCycle] at hp
    split at hp
    · cases hp
    · exact hp
  refine ⟨h.name, h₁.loans, ?_, fun p hp => h.pending p (hpending p hp),
    fun p hp => h₁.approvals p (hpending p hp), h₁.count, h.round.trans (Fin.le_saturatingAdd _ _)⟩
  have hpolicy := h.policy
  simp only [GroupAccount.advanceCycle, advancePolicy]
  split
  · rename_i heq
    rw [heq] at hpolicy
    exact hpolicy
  · exact hpolicy

theorem new_sound {name : String} {contribution : Contribution} {policy : PayoutPolicy}
    {quorum : Quorum} {openedAt : Height} (hloans : ∀ m ∈ members, m.loan = none)
    (hg : new name members contribution policy quorum openedAt = .ok g) : g.Sound := by
  obtain ⟨hname, hcount, -, -, -, hpolicy, rfl⟩ := new_eq_ok hg
  refine ⟨?_, fun m hm l hl => by simp [hloans m hm] at hl, ?_, nofun, nofun, hcount, le_refl _⟩
  · have : (utf8Bytes name).length = name.utf8ByteSize := by simp [utf8Bytes]
    rw [this]
    exact hname.trans (by decide)
  · cases policy with
    | rotation order next =>
      refine tooLong_eq_none.2 ?_
      rw [(checkRotation_eq_ok hpolicy).1]
      exact hcount.trans (by decide)
    | accumulate rules =>
      obtain ⟨u, hv, -⟩ := Except.bind_eq_ok.1 hpolicy
      simp [PayoutPolicy.decodeError, hv]

end GroupAccount

end AfroLink
