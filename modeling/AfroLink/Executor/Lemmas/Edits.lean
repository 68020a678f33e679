import AfroLink.Executor.Lemmas.Footprint

/-!
# What a message does with a group

It loads the record of the group, makes payments and writes the record back with what has become of the group.
-/

namespace AfroLink

def Store.pot (s : Store) (a : Address) (d : Denom) : Amount :=
  match s.getDecoded (.balance a d) with
  | .ok (some x) => x
  | _ => 0

def Message.paysFromGroup : Message → Option Address
  | .groupPayout group | .approveGroupAction group | .shareOut group => some group
  | _ => none

/-- What a message of `sender` makes of the record `g` of the group at `a` which holds `pot`: the new record, and the
payments with who makes them. -/
inductive GroupEdit (ctx : BlockContext) (sender a : Address) (pot : Amount) (g : GroupAccount) :
    Message → GroupAccount → Address → List (Address × Amount) → Prop where
  | contribute {g' : GroupAccount} (h : g.recordContribution sender = .ok g') :
      GroupEdit ctx sender a pot g (.contributeToGroup a g.contribution.amount) g' sender [(a, g.contribution.amount)]
  | payout {recipient : Address} (hr : g.nextRecipient = some recipient) (hdue : g.payoutDue ctx.height = true) :
      GroupEdit ctx sender a pot g (.groupPayout a) (g.advanceCycle ctx.height) a [(recipient, pot)]
  | buyShares {shares : U32} {g' : GroupAccount} {cost : Amount} (h : g.buyShares sender shares = .ok (g', cost)) :
      GroupEdit ctx sender a pot g (.buyShares a shares) g' sender [(a, cost)]
  | paySocial {g' : GroupAccount} {amount : Amount} (h : g.paySocial sender = .ok (g', amount)) :
      GroupEdit ctx sender a pot g (.paySocialFund a) g' sender [(a, amount)]
  | propose {beneficiary : Address} {kind : GroupProposalKind} {g' : GroupAccount}
      (h : g.openProposal beneficiary kind pot = .ok g') :
      GroupEdit ctx sender a pot g (.proposeGroupAction a beneficiary kind) g' a []
  | approve {g' : GroupAccount} (h : g.approve sender = .ok (g', false)) :
      GroupEdit ctx sender a pot g (.approveGroupAction a) g' a []
  | carryOut {g' g'' : GroupAccount} {beneficiary : Address} {amount : Amount}
      (h : g.approve sender = .ok (g', true)) (hcarry : Exec.carryOut g' pot = .ok (g'', beneficiary, amount)) :
      GroupEdit ctx sender a pot g (.approveGroupAction a) g'' a [(beneficiary, amount)]
  | repay {amount : Amount} {g' : GroupAccount} (h : g.repay sender amount = .ok g') :
      GroupEdit ctx sender a pot g (.repayLoan a amount) g' sender [(a, amount)]
  | close {rules : ShareRules} (h : g.requireShareRules = .ok rules) (hdue : g.payoutDue ctx.height = true) :
      GroupEdit ctx sender a pot g (.closeCycle a) (g.advanceCycle ctx.height) a []
  | shareOut {fund : Amount} {g' : GroupAccount} {payments : List (Address × Amount)}
      (hfund : g.lendable pot = .ok fund) (h : g.shareOut fund = .ok (g', payments)) :
      GroupEdit ctx sender a pot g (.shareOut a) g' a payments

/-- A message of a member works on the group at `a`: the payments are made, the new record is written. -/
structure WritesBack (ctx : BlockContext) (sender a : Address) (m : Message) (s s' : Store) (r : Account)
    (g g' : GroupAccount) (payer : Address) (payments : List (Address × Amount)) : Prop
    extends Exec.Loads s sender a (r, g) where
  edit : GroupEdit ctx sender a (s.pot a g.contribution.denom) g m g' payer payments
  paid : ∃ s₁, Runs (Exec.payAll payer g.contribution.denom payments) s () s₁ ∧
    s' = s₁.set (.account a) { r with kind := .group g' }

variable {ctx : BlockContext} {sender a group payer src dst : Address} {pot x : Amount} {d : Denom} {m : Message}
  {r : Account} {g g' : GroupAccount} {payments : List (Address × Amount)} {s s' s₁ : Store}

theorem GroupEdit.payer_eq (h : GroupEdit ctx sender a pot g m g' payer payments) :
    payer = sender ∨ payer = a ∧ (payments = [] ∨ m.paysFromGroup = some a) := by
  cases h with
  | contribute | buyShares | paySocial | repay => exact .inl rfl
  | propose | approve | close => exact .inr ⟨rfl, .inl rfl⟩
  | payout | carryOut | shareOut => exact .inr ⟨rfl, .inr rfl⟩

namespace Exec

/-- The group whose record a message loads and writes back. -/
def Message.editsGroup : Message → Option Address
  | .contributeToGroup group _ | .groupPayout group | .buyShares group _ | .paySocialFund group
  | .proposeGroupAction group _ _ | .approveGroupAction group | .repayLoan group _ | .closeCycle group
  | .shareOut group => some group
  | _ => none

theorem Message.editsGroup_of_pays (h : m.paysFromGroup = some a) : Message.editsGroup m = some a := by
  cases m <;> first | exact h | cases h

theorem pot_keeps {C : Prop} {g : GroupAccount} :
    Keeps ⊥ C (fun b => b = s.pot group g.contribution.denom) (groupBalance group g) s := by
  refine .mapErr (fun _ => rfl) (.read .get fun v hv => .pure ?_)
  unfold Store.pot
  rw [hv]
  cases v <;> rfl

theorem payAll_singleton (h : Runs (bankTransfer src dst d x) s () s') : Runs (payAll src d [(dst, x)]) s () s' :=
  Runs.bind_iff.2 ⟨(), s', h, rfl⟩

theorem Loads.writesBack (hload : Loads s sender a (r, g))
    (hedit : GroupEdit ctx sender a (s.pot a g.contribution.denom) g m g' payer payments)
    (hpaid : Runs (payAll payer g.contribution.denom payments) s () s₁) (hwrite : Runs (writeGroup a r g') s₁ () s') :
    ∃ r g g' payer payments, WritesBack ctx sender a m s s' r g g' payer payments :=
  ⟨r, g, g', payer, payments, hload, hedit, s₁, hpaid, (runs_setEncoded.1 hwrite).symm⟩

theorem applyMessage_writesBack [Crypto] (h : Runs (applyMessage ctx sender m) s () s')
    (hm : Message.editsGroup m = some a) :
    ∃ r g g' payer payments, WritesBack ctx sender a m s s' r g g' payer payments := by
  cases m <;> cases hm <;> obtain ⟨⟨r, g⟩, hload, h⟩ := loadGroup_keeps.run_read h
  case contributeToGroup amount =>
    obtain ⟨hamount, h⟩ := Runs.guard_iff.1 h
    obtain rfl := not_not.1 hamount
    obtain ⟨g', hg', h⟩ := Runs.lift h
    obtain ⟨u, s₁, hpay, hwrite⟩ := Runs.bind_iff.1 h
    exact hload.writesBack (.contribute hg') (payAll_singleton hpay) hwrite
  case groupPayout =>
    dsimp only at h
    split at h
    · cases h
    rename_i recipient hr
    obtain ⟨hdue, h⟩ := Runs.guard_iff.1 h
    obtain ⟨pot, rfl, h⟩ := pot_keeps.run_read h
    obtain ⟨-, h⟩ := Runs.guard_iff.1 h
    obtain ⟨u, s₁, hpay, hwrite⟩ := Runs.bind_iff.1 h
    exact hload.writesBack (.payout hr (by simpa using hdue)) (payAll_singleton hpay) hwrite
  case buyShares shares =>
    obtain ⟨⟨g', cost⟩, hg', h⟩ := Runs.lift h
    obtain ⟨u, s₁, hpay, hwrite⟩ := Runs.bind_iff.1 h
    exact hload.writesBack (.buyShares hg') (payAll_singleton hpay) hwrite
  case paySocialFund =>
    obtain ⟨⟨g', amount⟩, hg', h⟩ := Runs.lift h
    obtain ⟨u, s₁, hpay, hwrite⟩ := Runs.bind_iff.1 h
    exact hload.writesBack (.paySocial hg') (payAll_singleton hpay) hwrite
  case proposeGroupAction beneficiary kind =>
    obtain ⟨pot, rfl, h⟩ := pot_keeps.run_read h
    obtain ⟨g', hg', h⟩ := Runs.lift h
    exact hload.writesBack (.propose hg') rfl h
  case approveGroupAction =>
    obtain ⟨pot, rfl, h⟩ := pot_keeps.run_read h
    obtain ⟨⟨g', passed⟩, hg', h⟩ := Runs.lift h
    cases passed with
    | false => exact hload.writesBack (.approve hg') rfl h
    | true =>
      obtain ⟨⟨g'', beneficiary, amount⟩, hcarry, h⟩ := Runs.lift h
      obtain ⟨u, s₁, hpay, hwrite⟩ := Runs.bind_iff.1 h
      exact hload.writesBack (.carryOut hg' hcarry) (payAll_singleton hpay) hwrite
  case repayLoan amount =>
    obtain ⟨g', hg', h⟩ := Runs.lift h
    obtain ⟨u, s₁, hpay, hwrite⟩ := Runs.bind_iff.1 h
    exact hload.writesBack (.repay hg') (payAll_singleton hpay) hwrite
  case closeCycle =>
    obtain ⟨rules, hrules, h⟩ := Runs.lift h
    obtain ⟨hdue, h⟩ := Runs.guard_iff.1 h
    exact hload.writesBack (.close hrules (by simpa using hdue)) rfl h
  case shareOut =>
    obtain ⟨pot, rfl, h⟩ := pot_keeps.run_read h
    obtain ⟨fund, hfund, h⟩ := Runs.lift h
    obtain ⟨⟨g', payments⟩, hg', h⟩ := Runs.lift h
    obtain ⟨u, s₁, hpay, hwrite⟩ := Runs.bind_iff.1 h
    exact hload.writesBack (.shareOut hfund hg') hpay hwrite

end Exec

end AfroLink
