import AfroLink.Executor.Lemmas.Savings
import AfroLink.Executor.Theorems.Escrow
import AfroLink.Executor.Theorems.Records

/-!
# Money leaves a group by agreement

What the members decide is written down beside the run: the cycles closed since the round began, the question that was
put to them and who has approved of it since.
-/

namespace AfroLink

open Exec

/-- The minutes of a group: the cycles closed in the round, the open question and who approved. -/
structure Minutes where
  closed : ℕ := 0
  asked : Option (Address × GroupProposalKind) := none
  approvers : List Address := []

def GroupProposalKind.amount : GroupProposalKind → Amount
  | .loan principal _ => principal
  | .socialGrant amount => amount

namespace Minutes

/-- A message of `sender` to the group. A new question is open to all, and lapses with the cycle. -/
def note (b : Minutes) (sender : Address) : Message → Minutes
  | .proposeGroupAction _ beneficiary kind => { b with asked := some (beneficiary, kind), approvers := [] }
  | .approveGroupAction _ => { b with approvers := sender :: b.approvers }
  | .closeCycle _ | .groupPayout _ => { closed := b.closed + 1 }
  | .shareOut _ => {}
  | _ => b

/-- The minutes begin with the group at `a` and hold what it was asked to do. -/
def write (a : Address) (s _ : Store) (b : Minutes) (ev : StoreEvent) : Minutes :=
  match s.group a, ev with
  | none, _ => {}
  | some _, .message _ sender m => if Message.editsGroup m = some a then b.note sender m else b
  | some _, _ => b

/-- The record of the group and the minutes agree. -/
structure Agrees (b : Minutes) (g : GroupAccount) : Prop where
  start : g.roundStartCycle ≤ g.cycle
  closed : g.cycle.val ≤ g.roundStartCycle.val + b.closed
  pending : ∀ p, g.pending = some p → b.asked = some (p.beneficiary, p.kind) ∧ p.openedCycle ≤ g.cycle ∧
    p.approvals.Perm b.approvers ∧ b.approvers.Nodup ∧ ∀ x ∈ b.approvers, g.isMember x = true

end Minutes

section

variable {ctx : BlockContext} {sender a payer : Address} {pot : Amount} {g g' : GroupAccount} {msg : Message}
  {payments : List (Address × Amount)} {b : Minutes}

theorem Minutes.Agrees.of_none (hstart : g.roundStartCycle ≤ g.cycle)
    (hclosed : g.cycle.val ≤ g.roundStartCycle.val + b.closed) (hnone : g.pending = none) : b.Agrees g :=
  ⟨hstart, hclosed, fun p hp => by cases hnone.symm.trans hp⟩

theorem Minutes.Agrees.withMembers (hb : b.Agrees g) (hmembers : g.SameCharter g') (hcycle : g'.cycle = g.cycle)
    (hstart : g'.roundStartCycle = g.roundStartCycle) (hpending : g'.pending = g.pending) : b.Agrees g' := by
  refine ⟨?_, ?_, fun p hp => ?_⟩
  · rw [hcycle, hstart]
    exact hb.start
  · rw [hcycle, hstart]
    exact hb.closed
  · obtain ⟨hasked, hopened, hperm, hnodup, hmember⟩ := hb.pending p (hpending ▸ hp)
    refine ⟨hasked, hcycle ▸ hopened, hperm, hnodup, fun x hx => ?_⟩
    rw [GroupAccount.isMember_congr hmembers.members]
    exact hmember x hx

theorem Minutes.Agrees.close (hb : b.Agrees g) (at_ : Height) :
    Minutes.Agrees { closed := b.closed + 1 } (g.advanceCycle at_) := by
  have hone : (1 : U64).val = 1 := rfl
  refine .of_none (hb.start.trans (Fin.le_saturatingAdd _ _)) ?_ ?_
  · have hclosed := hb.closed
    simp only [GroupAccount.advanceCycle, Fin.saturatingAdd_val, hone]
    omega
  · cases hp : g.pending with
    | none => simp [GroupAccount.advanceCycle, hp]
    | some p =>
      obtain ⟨-, hopened, -⟩ := hb.pending p hp
      simp [GroupAccount.advanceCycle, hp, hopened]

theorem Minutes.Agrees.approve {passed : Bool} (hb : b.Agrees g) (h : g.approve sender = .ok (g', passed)) :
    Minutes.Agrees { b with approvers := sender :: b.approvers } g' := by
  obtain ⟨hsender, p, hp, hnew, -, rfl⟩ := GroupAccount.approve_eq_ok h
  obtain ⟨hasked, hopened, hperm, hnodup, hmember⟩ := hb.pending p hp
  refine ⟨hb.start, hb.closed, ?_⟩
  rintro q ⟨⟩
  refine ⟨hasked, hopened, ?_, List.nodup_cons.2 ⟨fun hmem => hnew (hperm.mem_iff.2 hmem), hnodup⟩, fun x hx => ?_⟩
  · exact (List.perm_orderedInsert _ _ _).trans (hperm.cons sender)
  · rcases List.mem_cons.1 hx with rfl | hx
    · exact hsender
    · exact hmember x hx

theorem GroupEdit.agrees (h : GroupEdit ctx sender a pot g msg g' payer payments) (hb : b.Agrees g) :
    (b.note sender msg).Agrees g' := by
  have hcharter := h.effect.1
  cases h with
  | contribute h =>
    obtain ⟨m, members, -, -, rfl⟩ := GroupAccount.recordContribution_eq_ok h
    exact hb.withMembers hcharter rfl rfl rfl
  | payout hr hdue => exact hb.close _
  | buyShares h =>
    obtain ⟨rules, m, m', members, -, -, -, -, rfl⟩ := GroupAccount.buyShares_eq_ok h
    exact hb.withMembers hcharter rfl rfl rfl
  | paySocial h =>
    obtain ⟨rules, m, members, fund, -, -, -, rfl⟩ := GroupAccount.paySocial_eq_ok h
    exact hb.withMembers hcharter rfl rfl rfl
  | propose h =>
    obtain ⟨rules, -, -, -, rfl⟩ := GroupAccount.openProposal_eq_ok h
    refine ⟨hb.start, hb.closed, ?_⟩
    rintro p ⟨⟩
    exact ⟨rfl, le_refl g.cycle, .nil, .nil, fun x hx => by cases hx⟩
  | approve h => exact hb.approve h
  | carryOut h hcarry =>
    have hb' := hb.approve h
    rcases carryOut_eq_ok hcarry with hloan | hgrant
    · obtain ⟨rules, p, gs, charge, due, m, members, -, -, -, -, -, -, -, -, rfl⟩ :=
        GroupAccount.issueLoan_eq_ok hloan
      exact .of_none hb'.start hb'.closed rfl
    · obtain ⟨p, fund, -, -, -, -, rfl⟩ := GroupAccount.issueGrant_eq_ok hgrant
      exact .of_none hb'.start hb'.closed rfl
  | repay h =>
    obtain ⟨m, m', members, l, owed, -, -, -, -, -, -, -, -, rfl⟩ := GroupAccount.repay_eq_ok h
    exact hb.withMembers hcharter rfl rfl rfl
  | close h hdue => exact hb.close _
  | shareOut hfund h =>
    obtain ⟨rules, members, -, -, -, rfl⟩ := GroupAccount.shareOut_eq_ok h
    exact .of_none (le_refl g.cycle) (Nat.le_add_right _ _) rfl

theorem Quorum.mul_le_of_requiredOf {q : Quorum} {n k : ℕ} (hpos : 0 < q.denominator.val)
    (hle : q.numerator ≤ q.denominator) (h : q.requiredOf n ≤ k) :
    n * q.numerator.val ≤ k * q.denominator.val := by
  have hne : q.denominator ≠ 0 := fun hzero => hpos.ne' (congrArg Fin.val hzero)
  rw [requiredOf, if_neg hne, min_le_iff] at h
  rcases h with h | h
  · have hceil := (Nat.div_lt_iff_lt_mul hpos).1 (Nat.lt_succ_of_le h)
    rw [Nat.succ_eq_add_one, Nat.add_one_mul] at hceil
    omega
  · exact Nat.mul_le_mul h hle

theorem Minutes.Agrees.carryOut {g'' : GroupAccount} {beneficiary : Address} {amount : Amount} (hb : b.Agrees g)
    (hquorum : 0 < g.quorum.denominator.val ∧ g.quorum.numerator ≤ g.quorum.denominator)
    (h : g.approve sender = .ok (g', true)) (hcarry : Exec.carryOut g' pot = .ok (g'', beneficiary, amount)) :
    ∃ kind, b.asked = some (beneficiary, kind) ∧ kind.amount = amount ∧ (sender :: b.approvers).Nodup ∧
      (∀ x ∈ sender :: b.approvers, g.isMember x = true) ∧
      g.members.length * g.quorum.numerator.val ≤ (sender :: b.approvers).length * g.quorum.denominator.val := by
  have hnoted := hb.approve h
  obtain ⟨-, p, hp, -, hpassed, rfl⟩ := GroupAccount.approve_eq_ok h
  obtain ⟨hasked, -, hperm, hnodup, hmember⟩ := hnoted.pending _ rfl
  have henough : g.approvalsRequired ≤ (sender :: b.approvers).length := by
    rw [← hperm.length_eq, List.orderedInsert_length]
    exact of_decide_eq_true hpassed.symm
  have hkind : ∃ kind, p.kind = kind ∧ kind.amount = amount ∧ p.beneficiary = beneficiary := by
    rcases carryOut_eq_ok hcarry with hloan | hgrant
    · obtain ⟨rules, q, gs, charge, due, m, members, -, hq, hkind, hpayee, -, -, -, -, -⟩ :=
        GroupAccount.issueLoan_eq_ok hloan
      cases hq
      exact ⟨_, hkind, rfl, hpayee.symm⟩
    · obtain ⟨q, fund, hq, hkind, hpayee, -, -⟩ := GroupAccount.issueGrant_eq_ok hgrant
      cases hq
      exact ⟨_, hkind, rfl, hpayee.symm⟩
  obtain ⟨kind, rfl, hamount, rfl⟩ := hkind
  exact ⟨p.kind, hasked, hamount, hnodup, hmember, Quorum.mul_le_of_requiredOf hquorum.1 hquorum.2 henough⟩

end

/-- How an accumulating group may pay: it shares out a round that is over, or it pays the beneficiary of the question
that is open what was asked for, with the approval of a quorum of its members. -/
inductive Agreed (a : Address) (g : GroupAccount) (rules : ShareRules) (b : Minutes) (s s' : Store) :
    StoreEvent → Prop where
  | shareOut {ctx : BlockContext} {sender : Address} (h : rules.cyclesPerRound.val ≤ b.closed) :
      Agreed a g rules b s s' (.message ctx sender (.shareOut a))
  | carriedOut {ctx : BlockContext} {sender beneficiary : Address} {kind : GroupProposalKind}
      (hasked : b.asked = some (beneficiary, kind))
      (hpaid : (s'.ledger g.contribution.denom).balance a + kind.amount.val =
        (s.ledger g.contribution.denom).balance a)
      (hreceived : (s'.ledger g.contribution.denom).balance beneficiary =
        (s.ledger g.contribution.denom).balance beneficiary + kind.amount.val)
      (hdistinct : (sender :: b.approvers).Nodup) (hmembers : ∀ x ∈ sender :: b.approvers, g.isMember x = true)
      (hquorum : g.members.length * g.quorum.numerator.val ≤
        (sender :: b.approvers).length * g.quorum.denominator.val) :
      Agreed a g rules b s s' (.message ctx sender (.approveGroupAction a))

section

variable [Crypto] {a : Address} {s s' : Store} {ev : StoreEvent} {b : Minutes} {g : GroupAccount} {rules : ShareRules}

theorem GroupChange.agrees (h : GroupChange a s s' ev) (hb : ∀ g, s.group a = some g → b.Agrees g) :
    ∀ g, s'.group a = some g → (b.write a s s' ev).Agrees g := by
  intro g' hg'
  cases h with
  | quiet hev hgroup =>
    rw [hgroup] at hg'
    have hkept : b.write a s s' ev = b := by
      unfold Minutes.write
      rw [hg']
      cases ev with
      | message ctx sender m => exact if_neg (hev sender m rfl)
      | _ => rfl
    rw [hkept]
    exact hb g' hg'
  | lost hev hgroup => cases hgroup.symm.trans hg'
  | founded hbefore hafter hnew hmoney =>
    cases hafter.symm.trans hg'
    obtain ⟨-, -, -, -, -, -, rfl⟩ := GroupAccount.new_eq_ok hnew
    exact .of_none (le_refl _) (Nat.zero_le _) rfl
  | @edited ctx sender payer m g _ payments hedited =>
    cases hedited.after.symm.trans hg'
    have hnoted : b.write a s s' (.message ctx sender m) = b.note sender m := by
      unfold Minutes.write
      rw [hedited.before]
      exact if_pos hedited.edit.editsGroup
    rw [hnoted]
    exact hedited.edit.agrees (hb g hedited.before)

theorem Minutes.exists_write (a : Address) {es : List StoreEvent} (h : Trace Emits s es s') (b : Minutes) :
    ∃ b', Trace (Trace.Beside Emits (Minutes.write a)) (s, b) es (s', b') :=
  h.exists_beside b

theorem GroupStep.agreed (h : GroupStep a s s' ev) (hg : s.group a = some g) (hrules : g.shareRules = some rules)
    (hchartered : g.Chartered) (hb : b.Agrees g)
    (hlower : (s'.ledger g.contribution.denom).balance a < (s.ledger g.contribution.denom).balance a) :
    Agreed a g rules b s s' ev := by
  cases h with
  | quiet _ _ hmoney => exact absurd hlower (hmoney _).not_gt
  | lost _ _ hmoney => exact absurd hlower (hmoney _).not_gt
  | founded _ _ _ hmoney =>
    rw [hmoney] at hlower
    exact absurd hlower (lt_irrefl _)
  | @edited ctx sender payer m g₁ g' payments hsender h =>
    cases h.before.symm.trans hg
    -- who pays the group does not lower what it holds, and nothing is lowered by paying nothing
    have hrises : a ≠ payer → False := fun hne => by
      rw [h.income hne] at hlower
      omega
    have hnothing : payer = a → payments = [] → False := by
      rintro rfl rfl
      have hsame := h.outlay
      rw [paidOut_nil] at hsame
      omega
    cases h.edit with
    | contribute _ | buyShares _ | paySocial _ | repay _ => exact (hrises hsender).elim
    | propose _ | approve _ | close _ _ => exact (hnothing rfl rfl).elim
    | payout hr _ => cases (GroupAccount.shareRules_of_nextRecipient hr).symm.trans hrules
    | @carryOut _ _ beneficiary amount happrove hcarry =>
      obtain ⟨kind, hasked, rfl, hdistinct, hmembers, hquorum⟩ := hb.carryOut hchartered.quorum happrove hcarry
      have hout := h.outlay
      rw [paidOut_cons, paidOut_nil, Nat.add_zero] at hout
      have hne : a ≠ beneficiary := by
        rintro rfl
        rw [if_pos rfl] at hout
        omega
      rw [if_neg hne] at hout
      refine .carriedOut hasked hout ?_ hdistinct hmembers hquorum
      obtain ⟨s₁, hpaid, hledger⟩ := h.paid
      rw [hledger, balance_of_payAll hpaid hne.symm, if_pos rfl, dueTo_cons, if_pos rfl, dueTo_nil, Nat.add_zero]
    | shareOut _ hshareOut =>
      obtain ⟨rules', members, hrules', hround, -, -⟩ := GroupAccount.shareOut_eq_ok hshareOut
      cases hrules'.symm.trans hrules
      have hclosed := hb.closed
      have hround : rules.cyclesPerRound.val ≤ g.cycle.val - g.roundStartCycle.val := by
        have hround : rules.cyclesPerRound.val ≤ g.cyclesThisRound.val := hround
        rwa [GroupAccount.cyclesThisRound, Fin.saturatingSub_val] at hround
      exact .shareOut (by omega)

end

theorem groupStep_of_run [Crypto] [StateRoot] (happart : ModulesApart) {genesis : Genesis} {limits : GenesisLimits}
    {block : Block} {start s s' : Store} {e : Executor} {blocks : List (BlockContext × List Transaction)}
    {es : List StoreEvent} {ev : StoreEvent} {a : Address} {g : GroupAccount}
    (hgenesis : Runs (genesis.apply limits) .empty block start) (hes : es ++ [ev] <+: runEvents e blocks start)
    (hrun : Trace Emits start es s) (hstep : Emits s [ev] s') (hg : s.group a = some g) :
    s.Chartered ∧ GroupStep a s s' ev := by
  have howned : ∀ ev' ∈ es ++ [ev], ev'.Owned := fun ev' hev =>
    runEvents_owned happart.keyGroup (Genesis.apply_guarded hgenesis) (Genesis.apply_keyed hgenesis) ev'
      (hes.subset hev)
  have hacts : Trace Acts start es s := hrun.restrict fun ev' hev => howned ev' (List.mem_append_left _ hev)
  have hregular : s.Regular :=
    hacts.preserves (fun _ _ _ hs hstep => hstep.regular happart hs) (Genesis.apply_regular hgenesis)
  obtain ⟨seed, hseed⟩ : ∃ seed, a = Address.derived .groupAddress seed := by
    rcases (hregular.guarded a).kind with ⟨key, hkey⟩ | ⟨g', seed, -, hseed⟩
    · rw [Store.group, Account.asGroup, hkey] at hg
      cases hg
    · exact ⟨seed, hseed⟩
  have hact : Acts s [ev] s' := ⟨hstep, fun ev' hev => howned ev' (List.mem_append_right _ hev)⟩
  obtain ⟨ev', heq, hgroupStep⟩ := hact.groupStep happart.toAddressesApart hseed
  cases heq
  exact ⟨hrun.preserves (fun _ _ _ hs hstep => hstep.chartered hs) (Genesis.apply_chartered hgenesis), hgroupStep⟩

/-- In every run, whatever lowers what an accumulating group holds is agreed. -/
theorem group_money_leaves_by_agreement [Crypto] [StateRoot] (happart : ModulesApart) (genesis : Genesis)
    (limits : GenesisLimits) (block : Block) (start : Store)
    (hgenesis : Runs (genesis.apply limits) .empty block start) (e : Executor)
    (blocks : List (BlockContext × List Transaction)) (es : List StoreEvent) (ev : StoreEvent)
    (hes : es ++ [ev] <+: runEvents e blocks start) (a : Address) (s s' : Store) (b b' : Minutes)
    (hrun : Trace (Trace.Beside Emits (Minutes.write a)) (start, {}) es (s, b))
    (hstep : Trace.Beside Emits (Minutes.write a) (s, b) [ev] (s', b')) (g : GroupAccount) (rules : ShareRules)
    (hg : s.group a = some g) (hrules : g.shareRules = some rules)
    (hlower : (s'.ledger g.contribution.denom).balance a < (s.ledger g.contribution.denom).balance a) :
    Agreed a g rules b s s' ev := by
  obtain ⟨hchartered, hgroupStep⟩ := groupStep_of_run happart hgenesis hes hrun.of_beside hstep.1 hg
  have hagrees : ∀ g, s.group a = some g → b.Agrees g := by
    refine hrun.preserves (I := fun p : Store × Minutes => ∀ g, p.1.group a = some g → p.2.Agrees g) ?_ ?_
    · rintro ⟨t, c⟩ as ⟨t', c'⟩ hc ⟨hemits, hwrite⟩
      obtain ⟨ev', rfl, hchange⟩ := hemits.groupChange a
      rw [hwrite]
      exact hchange.agrees hc
    · intro g hg
      cases (Genesis.apply_group hgenesis a).symm.trans hg
  exact hgroupStep.agreed hg hrules (hchartered a g hg) (hagrees g hg) hlower

section

variable [Crypto] {e : Executor} {ctx : BlockContext} {t : Transaction} {s : Store}

theorem Emits.of_not_rejects (h : rejects e ctx t s = false) :
    Emits s [.fee (t.body.fee.payerOr t.body.sender) t.body.fee.denom t.body.fee.amount] (afterFee t s) := by
  have hcheck := wp_checkTx e ctx t s
  unfold wp at hcheck
  unfold rejects at h
  split at h
  · cases h
  · rename_i payer s₁ hc
    rw [hc] at hcheck
    obtain ⟨rfl, rfl, -⟩ := hcheck
    split at h
    · cases h
    · rename_i u s₂ hpay
      rw [afterFee_of_runs hpay]
      exact .fee hpay

theorem Emits.of_not_messagesFail (h : messagesFail ctx t s = false) :
    Trace Emits s (t.body.messages.map (.message ctx t.body.sender)) (afterMessages ctx t s) := by
  unfold messagesFail at h
  unfold afterMessages
  split at h
  · cases h
  · rename_i u s₁ hm
    rw [hm]
    exact applyMessages_trace hm

end

namespace Tagged

open Sample (chain opened genesisOf)

def kitty : Address := Address.derived .groupAddress ((addressOf 1).asBytes ++ leBytes 8 0)

/-- Account 1 founds a group with account 2, buys two shares of 1000 and asks for a loan of 500. -/
def asking : Transaction :=
  sent 1 0 [
    .createGroup "chama" [⟨addressOf 1, .treasurer⟩, ⟨addressOf 2, .member⟩] ⟨1000, .native, 10⟩
      (.accumulate Sample.lendingRules) ⟨1, 2⟩,
    .buyShares kitty 2,
    .proposeGroupAction kitty (addressOf 1) (.loan 500 [])]

def granting : Transaction := sent 1 1 [.approveGroupAction kitty]

def asked : Store := executeBlocks ⟨chain⟩ [(⟨1, 5⟩, [asking])] (opened stakers)

/-- One of two members is half of them. -/
theorem group_money_leaves_by_agreement_granting :
    ∃ g b, (afterFee granting asked).group kitty = some g ∧
      ((afterMessages ⟨2, 6⟩ granting (afterFee granting asked)).ledger .native).balance kitty = 1500 ∧
      Agreed kitty g Sample.lendingRules b (afterFee granting asked)
        (afterMessages ⟨2, 6⟩ granting (afterFee granting asked))
        (.message ⟨2, 6⟩ (addressOf 1) (.approveGroupAction kitty)) := by
  have hprefix : runEvents ⟨chain⟩ [(⟨1, 5⟩, [asking])] (opened stakers) ++ [.fee (addressOf 1) .native 10] ++
      [.message ⟨2, 6⟩ (addressOf 1) (.approveGroupAction kitty)] <+:
      runEvents ⟨chain⟩ [(⟨1, 5⟩, [asking]), (⟨2, 6⟩, [granting])] (opened stakers) := by
    decide +kernel
  have hgroup : ((afterFee granting asked).group kitty).any (fun g =>
    decide (g.shareRules = some Sample.lendingRules ∧ g.contribution.denom = .native)) = true := by decide +kernel
  have hmoney : ((afterFee granting asked).ledger .native).balance kitty = 2000 ∧
      ((afterMessages ⟨2, 6⟩ granting (afterFee granting asked)).ledger .native).balance kitty = 1500 := by
    decide +kernel
  have htaken : rejects ⟨chain⟩ ⟨2, 6⟩ granting asked = false ∧
      messagesFail ⟨2, 6⟩ granting (afterFee granting asked) = false := by
    decide +kernel
  have hfee := Emits.of_not_rejects htaken.1
  have hmessage := Emits.of_not_messagesFail htaken.2
  have hfirst := executeBlocks_trace ⟨chain⟩ [(⟨1, 5⟩, [asking])] (opened stakers)
  obtain ⟨block, hgenesis⟩ := stakers_genesis
  obtain ⟨g, hg, hfacts⟩ := (Option.any_eq_true _ _).1 hgroup
  obtain ⟨hrules, hdenom⟩ := of_decide_eq_true hfacts
  rw [show executeBlocks ⟨chain⟩ [(⟨1, 5⟩, [asking])] (opened stakers) = asked from rfl] at hfirst
  generalize afterMessages ⟨2, 6⟩ granting (afterFee granting asked) = s' at hmoney hmessage ⊢
  generalize afterFee granting asked = s at hmoney hmessage hfee hg ⊢
  obtain ⟨t, hstep, hdone⟩ := hmessage.of_cons Emits.single
  cases hdone.of_nil Emits.single
  obtain ⟨b, hrun⟩ := Minutes.exists_write kitty (hfirst.trans (.single hfee)) {}
  refine ⟨g, b, hg, hmoney.2, ?_⟩
  refine group_money_leaves_by_agreement modulesApart _ _ block _ hgenesis ⟨chain⟩ _ _ _ hprefix kitty s s' b _ hrun
    ⟨hstep, rfl⟩ g _ hg hrules ?_
  rw [hdenom, hmoney.1, hmoney.2]
  decide

end Tagged

end AfroLink
