import AfroLink.Executor.Lemmas.Loans

/-!
# Savings

Shares and credit of the members.
-/

namespace AfroLink

/-! ## What a message does to a member -/

/-- Is about the savings of the member `x`, when it comes from `sender`. -/
def Message.saves (sender x : Address) : Message → Bool
  | .contributeToGroup .. | .buyShares .. => x == sender
  | .closeCycle _ | .groupPayout _ | .shareOut _ => true
  | _ => false

theorem Message.closes_of_saves {sender x : Address} {msg : Message} (h : msg.saves sender x = false) :
    msg.closes = false := by
  cases msg <;> first | rfl | cases h

/-- What a message of `sender` does to the savings of a member. -/
inductive SavingMove (g : GroupAccount) (sender : Address) : Message → Member → Member → Prop where
  | kept {msg : Message} {m m' : Member} (hmsg : msg.saves sender m.address = false) (h : m.SameSavings m') :
      SavingMove g sender msg m m'
  | contributed {a : Address} {amount : Amount} {m m' : Member} (hsender : m.address = sender)
      (hpaid : m.hasPaid g.cycle = false) (hmade : m'.contributionsMade = m.contributionsMade.saturatingAdd 1)
      (hmissed : m'.contributionsMissed = m.contributionsMissed) (hlast : m'.lastPaidCycle = some g.cycle)
      (hshares : m'.shares = m.shares) (hthis : m'.sharesThisCycle = m.sharesThisCycle) :
      SavingMove g sender (.contributeToGroup a amount) m m'
  | bought {a : Address} {n : U32} {rules : ShareRules} {m m' : Member} (hsender : m.address = sender)
      (hrules : g.shareRules = some rules) (h : m.Buys g.cycle rules n m') : SavingMove g sender (.buyShares a n) m m'
  | closed {msg : Message} {m m' : Member} (hmsg : msg.closes = true)
      (hmade : m'.contributionsMade = m.contributionsMade)
      (hmissed : m'.contributionsMissed =
        if m.hasPaid g.cycle then m.contributionsMissed else m.contributionsMissed.saturatingAdd 1)
      (hlast : m'.lastPaidCycle = m.lastPaidCycle) (hshares : m'.shares = m.shares) (hthis : m'.sharesThisCycle = 0) :
      SavingMove g sender msg m m'
  | settled {a : Address} {m m' : Member} (hmade : m'.contributionsMade = m.contributionsMade)
      (hmissed : m'.contributionsMissed = m.contributionsMissed) (hlast : m'.lastPaidCycle = m.lastPaidCycle)
      (hthis : m'.sharesThisCycle = 0) : SavingMove g sender (.shareOut a) m m'

theorem Replaces.forall₂_of_nodup {R : Member → Member → Prop} {a : Address} {m m' : Member}
    {members members' : List Member} (h : Replaces a m m' members members')
    (hnodup : (members.map (·.address)).Nodup) (hother : ∀ x, x.address ≠ a → R x x) (hm : R m m') :
    List.Forall₂ R members members' := by
  obtain ⟨before, after, rfl, rfl⟩ := h.split
  simp only [List.map_append, List.map_cons, List.nodup_append, List.nodup_cons, List.mem_cons, List.mem_map,
    h.address] at hnodup
  obtain ⟨-, ⟨hafter, -⟩, hbefore⟩ := hnodup
  refine List.rel_append (List.forall₂_same.2 fun x hx => ?_) (.cons hm (List.forall₂_same.2 fun x hx => ?_))
  · exact hother x (hbefore _ ⟨x, hx, rfl⟩ _ (.inl rfl))
  · exact hother x fun heq => hafter ⟨x, hx, heq⟩

namespace GroupAccount

variable {g g' : GroupAccount} {sender a : Address}

theorem SavingMove.close {msg : Message} (hmsg : msg.closes = true) (bps : Option U32) (m : Member) :
    SavingMove g sender msg m (closeMember bps g.cycle m) := by
  have hsame : { m with
      contributionsMissed := if m.hasPaid g.cycle then m.contributionsMissed else m.contributionsMissed.saturatingAdd 1
      sharesThisCycle := 0 }.SameSavings (closeMember bps g.cycle m) := levyFine_savings
  obtain ⟨hmade, hmissed, hlast, hshares, hthis⟩ := hsame
  exact .closed hmsg hmade hmissed hlast hshares hthis

theorem settleMembers_savingMove {fund : Amount} {total : U64} {ms ms' : List Member}
    {payments : List (Address × Amount)} (h : settleMembers fund total ms = .ok (ms', payments)) :
    List.Forall₂ (fun m m' => m'.address = m.address ∧ SavingMove g sender (.shareOut a) m m') ms ms' := by
  refine (settleMembers_forall₂ h).imp ?_
  rintro m m' ⟨net, hm⟩
  obtain ⟨gross, -, hm⟩ := Except.bind_eq_ok.1 hm
  obtain ⟨owed, -, hm⟩ := Except.bind_eq_ok.1 hm
  cases hm
  exact ⟨rfl, .settled rfl rfl rfl rfl⟩

end GroupAccount

section

variable {ctx : BlockContext} {sender a payer : Address} {pot : Amount} {g g' : GroupAccount} {msg : Message}
  {payments : List (Address × Amount)}

theorem GroupEdit.savingMoves (h : GroupEdit ctx sender a pot g msg g' payer payments)
    (hnodup : (g.members.map (·.address)).Nodup) :
    List.Forall₂ (fun m m' => m'.address = m.address ∧ SavingMove g sender msg m m') g.members g'.members := by
  have hkept : ∀ (msg : Message) (m : Member), msg.saves sender m.address = false →
      m.address = m.address ∧ SavingMove g sender msg m m := fun msg m hmsg => ⟨rfl, .kept hmsg (.refl m)⟩
  cases h with
  | contribute h =>
    obtain ⟨m, members, hpaid, hrep, rfl⟩ := GroupAccount.recordContribution_eq_ok h
    refine hrep.forall₂_of_nodup hnodup (fun x hx => hkept _ x (beq_eq_false_iff_ne.2 hx)) ⟨rfl, ?_⟩
    exact .contributed hrep.address hpaid rfl rfl rfl rfl rfl
  | payout hr hdue =>
    refine List.forall₂_map_right_iff.2 (List.forall₂_same.2 fun m _ => ⟨GroupAccount.levyFine_address, ?_⟩)
    exact GroupAccount.SavingMove.close rfl _ m
  | buyShares h =>
    obtain ⟨rules, m, m', members, hrules, hrep, hbuys, -, rfl⟩ := GroupAccount.buyShares_eq_ok h
    refine hrep.forall₂_of_nodup hnodup (fun x hx => hkept _ x (beq_eq_false_iff_ne.2 hx)) ?_
    exact ⟨hrep.kept.trans hrep.address.symm, .bought hrep.address hrules hbuys⟩
  | paySocial h =>
    obtain ⟨rules, m, members, fund, -, hrep, -, rfl⟩ := GroupAccount.paySocial_eq_ok h
    exact hrep.forall₂ (fun x => hkept _ x rfl) ⟨rfl, .kept rfl ⟨rfl, rfl, rfl, rfl, rfl⟩⟩
  | propose h =>
    obtain ⟨rules, -, -, -, rfl⟩ := GroupAccount.openProposal_eq_ok h
    exact List.forall₂_same.2 fun m _ => hkept _ m rfl
  | approve h =>
    obtain ⟨-, p, -, -, -, rfl⟩ := GroupAccount.approve_eq_ok h
    exact List.forall₂_same.2 fun m _ => hkept _ m rfl
  | carryOut h hcarry =>
    obtain ⟨-, p, -, -, -, rfl⟩ := GroupAccount.approve_eq_ok h
    rcases Exec.carryOut_eq_ok hcarry with hloan | hgrant
    · obtain ⟨rules, p, gs, charge, due, m, members, -, -, -, -, -, -, -, hrep, rfl⟩ :=
        GroupAccount.issueLoan_eq_ok hloan
      exact hrep.forall₂ (fun x => hkept _ x rfl) ⟨rfl, .kept rfl ⟨rfl, rfl, rfl, rfl, rfl⟩⟩
    · obtain ⟨p, fund, -, -, -, -, rfl⟩ := GroupAccount.issueGrant_eq_ok hgrant
      exact List.forall₂_same.2 fun m _ => hkept _ m rfl
  | repay h =>
    obtain ⟨m, m', members, l, owed, hrep, -, -, -, -, -, -, hsame, rfl⟩ := GroupAccount.repay_eq_ok h
    exact hrep.forall₂ (fun x => hkept _ x rfl) ⟨hrep.kept.trans hrep.address.symm, .kept rfl hsame⟩
  | close h hdue =>
    refine List.forall₂_map_right_iff.2 (List.forall₂_same.2 fun m _ => ⟨GroupAccount.levyFine_address, ?_⟩)
    exact GroupAccount.SavingMove.close rfl _ m
  | shareOut hfund h =>
    obtain ⟨rules, members, -, -, hm, rfl⟩ := GroupAccount.shareOut_eq_ok h
    exact GroupAccount.settleMembers_savingMove hm

theorem GroupEdit.cycle (h : GroupEdit ctx sender a pot g msg g' payer payments) :
    g'.cycle = if msg.closes then g.cycle.saturatingAdd 1 else g.cycle := by
  cases h.effect.2 with
  | kept hcloses _ hcycle _ => rw [hcloses, hcycle, if_neg Bool.false_ne_true]
  | closed hcloses heq => rw [hcloses, heq, if_pos rfl, GroupAccount.advanceCycle]
  | settled hcloses hcycle _ _ => rw [hcloses, hcycle, if_neg Bool.false_ne_true]

theorem GroupEdit.editsGroup (h : GroupEdit ctx sender a pot g msg g' payer payments) :
    Exec.Message.editsGroup msg = some a := by
  cases h <;> rfl

/-! ## The charter -/

/-- What founding checks of members and terms. -/
structure GroupAccount.Chartered (g : GroupAccount) : Prop where
  distinct : (g.members.map (·.address)).Nodup
  priced : g.contribution.amount ≠ 0
  capped : ∀ rules, g.shareRules = some rules → rules.maxShares ≤ MAX_SHARES_PER_CYCLE
  quorum : 0 < g.quorum.denominator.val ∧ g.quorum.numerator ≤ g.quorum.denominator

theorem GroupAccount.SameCharter.shareRules (h : g.SameCharter g') : g'.shareRules = g.shareRules := by
  have hterms := h.terms
  unfold GroupAccount.shareRules
  cases hp : g.policy <;> cases hp' : g'.policy <;> simp_all [PayoutPolicy.terms]

theorem GroupAccount.Chartered.sameCharter (hg : g.Chartered) (h : g.SameCharter g') : g'.Chartered where
  distinct := h.members ▸ hg.distinct
  priced := h.contribution ▸ hg.priced
  capped rules hrules := hg.capped rules (h.shareRules ▸ hrules)
  quorum := h.quorum ▸ hg.quorum

theorem ShareRules.validate_maxShares {rules : ShareRules} (h : rules.validate = .ok ()) :
    rules.maxShares ≤ MAX_SHARES_PER_CYCLE := by
  unfold ShareRules.validate at h
  split_ifs at h with _ _ hmax
  exact not_lt.1 hmax

theorem GroupAccount.new_chartered {name : String} {members : List Member} {contribution : Contribution}
    {policy : PayoutPolicy} {quorum : Quorum} {at_ : Height}
    (h : GroupAccount.new name members contribution policy quorum at_ = .ok g) : g.Chartered := by
  obtain ⟨-, -, hpriced, hdistinct, hquorum, hpolicy, rfl⟩ := GroupAccount.new_eq_ok h
  refine ⟨hdistinct, hpriced, fun rules hrules => ?_, hquorum⟩
  cases policy with
  | rotation order next => cases hrules
  | accumulate rules' =>
    cases hrules
    obtain ⟨_, hvalid, -⟩ := Except.bind_eq_ok.1 hpolicy
    exact ShareRules.validate_maxShares hvalid

end

def Store.Chartered (s : Store) : Prop := ∀ a g, s.group a = some g → g.Chartered

theorem Emits.chartered [Crypto] {s s' : Store} {es : List StoreEvent} (h : Emits s es s') (hs : s.Chartered) :
    s'.Chartered := by
  intro a g' hg'
  obtain ⟨ev, rfl, hchange⟩ := h.groupChange a
  cases hchange with
  | quiet hev hgroup => exact hs a g' (hgroup ▸ hg')
  | lost hev hgroup => cases hgroup.symm.trans hg'
  | founded hbefore hafter hnew hmoney =>
    cases hafter.symm.trans hg'
    exact GroupAccount.new_chartered hnew
  | edited hedited =>
    cases hedited.after.symm.trans hg'
    exact (hs a _ hedited.before).sameCharter hedited.edit.effect.1

theorem Genesis.apply_chartered [Crypto] [StateRoot] {g : Genesis} {limits : GenesisLimits} {b : Block} {start : Store}
    (h : Runs (g.apply limits) .empty b start) : start.Chartered := by
  intro a g hg
  cases (Genesis.apply_group h a).symm.trans hg

/-! ## One member along a run -/

/-- What an event makes of the savings of the member `x` of the group at `a`. -/
inductive SaverStep (a x : Address) (s s' : Store) : StoreEvent → Prop where
  | elsewhere {ev : StoreEvent} (hev : ∀ sender m, ev.took = some (sender, m) → Exec.Message.editsGroup m ≠ some a)
      (hgroup : s'.group a = s.group a) : SaverStep a x s s' ev
  | gone {ev : StoreEvent} (hgroup : s'.group a = none) : SaverStep a x s s' ev
  | founded {ctx : BlockContext} {sender : Address} {msg : Message} {g : GroupAccount}
      (hmsg : Exec.Message.founds msg = true) (hbefore : s.group a = none) (hafter : s'.group a = some g)
      (hfresh : ∀ m ∈ g.members, m.lastPaidCycle = none ∧ m.sharesThisCycle = 0) :
      SaverStep a x s s' (.message ctx sender msg)
  | moved {ctx : BlockContext} {sender : Address} {msg : Message} {g g' : GroupAccount}
      (hbefore : s.group a = some g) (hafter : s'.group a = some g') (hedits : Exec.Message.editsGroup msg = some a)
      (hsender : g.isMember sender = true)
      (hcharter : g.SameCharter g') (hcycle : g'.cycle = if msg.closes then g.cycle.saturatingAdd 1 else g.cycle)
      (hrotates : (∃ b, msg = .groupPayout b) → g.shareRules = none)
      (hmove : g.member x = none ∧ g'.member x = none ∨ ∃ m m', g.member x = some m ∧ g'.member x = some m' ∧
        m.address = x ∧ SavingMove g sender msg m m') :
      SaverStep a x s s' (.message ctx sender msg)

theorem Emits.saverStep [Crypto] {s s' : Store} {es : List StoreEvent} (h : Emits s es s') (hs : s.Chartered)
    (a x : Address) : ∃ ev, es = [ev] ∧ SaverStep a x s s' ev := by
  obtain ⟨ev, rfl, hchange⟩ := h.groupChange a
  refine ⟨ev, rfl, ?_⟩
  cases hchange with
  | quiet hev hgroup => exact .elsewhere hev hgroup
  | lost hev hgroup => exact .gone hgroup
  | founded hbefore hafter hnew hmoney =>
    refine .founded rfl hbefore hafter fun m hm => ?_
    obtain ⟨-, -, -, -, -, -, rfl⟩ := GroupAccount.new_eq_ok hnew
    obtain ⟨f, -, rfl⟩ := List.mem_map.1 hm
    exact ⟨rfl, rfl⟩
  | @edited ctx sender payer msg g g' payments hedited =>
    refine .moved hedited.before hedited.after hedited.edit.editsGroup hedited.member hedited.edit.effect.1
      hedited.edit.cycle ?_ ?_
    · rintro ⟨b, rfl⟩
      cases hedited.edit with
      | payout hr _ => exact GroupAccount.shareRules_of_nextRecipient hr
    · refine (find_member_cases (hedited.edit.savingMoves (hs a g hedited.before).distinct) x).imp id ?_
      rintro ⟨m, m', hm, hm', hmove⟩
      exact ⟨m, m', hm, hm', by simpa using List.find?_some hm, hmove⟩

end AfroLink
