import AfroLink.Executor.Lemmas.Regular

/-!
# What happens to a group

Along a run a group is founded, is edited by messages of its members, and may be given up by the bookkeeping when its
record cannot be read.
-/

namespace AfroLink

def Store.group (s : Store) (a : Address) : Option GroupAccount := (s.record a).asGroup

def Store.holding (s : Store) (a : Address) (d : Denom) : Amount := ⟨(s.ledger d).balance a, Cell.amount_lt _⟩

/-- A message of a member edits the group at `a`: the payments are made, the new record is written. -/
structure Edited (ctx : BlockContext) (sender a : Address) (m : Message) (s s' : Store) (g g' : GroupAccount)
    (payer : Address) (payments : List (Address × Amount)) : Prop where
  before : s.group a = some g
  after : s'.group a = some g'
  member : g.isMember sender = true
  edit : GroupEdit ctx sender a (s.holding a g.contribution.denom) g m g' payer payments
  paid : ∃ s₁, Runs (Exec.payAll payer g.contribution.denom payments) s () s₁ ∧ ∀ d, s'.ledger d = s₁.ledger d

/-! ## Payments -/

def paidOut (src : Address) (payments : List (Address × Amount)) : ℕ :=
  ((payments.filter (·.1 ≠ src)).map (·.2.val)).sum

@[simp] theorem paidOut_nil {src : Address} : paidOut src [] = 0 := rfl

theorem paidOut_cons {src dst : Address} {x : Amount} {rest : List (Address × Amount)} :
    paidOut src ((dst, x) :: rest) = (if src = dst then 0 else x.val) + paidOut src rest := by
  unfold paidOut
  by_cases h : src = dst
  · simp [h]
  · have h' : dst ≠ src := fun h' => h h'.symm
    simp [h, h']

namespace Exec

variable {s s' s₁ : Store} {src dst a sender : Address} {d d' : Denom} {x : Amount}

theorem balance_of_payAll_src {payments : List (Address × Amount)} (h : Runs (payAll src d payments) s () s') :
    (s'.ledger d).balance src + paidOut src payments = (s.ledger d).balance src := by
  induction payments generalizing s with
  | nil =>
    obtain ⟨-, rfl⟩ := Runs.pure_iff.1 h
    simp
  | cons p rest ih =>
    obtain ⟨u, s₁, hpay, hrest⟩ := Runs.bind_iff.1 h
    have hrest := ih hrest
    rw [paidOut_cons]
    cases paid_of_runs hpay with
    | self hself => simpa [hself] using hrest
    | moved y z hne hy hz =>
      rw [if_neg hne]
      rw [Store.ledger_withBalance] at hrest
      simp only [Function.update_of_ne hne, Store.ledger_withBalance, Function.update_self] at hrest
      omega

/-! ## Edits -/

theorem ledger_set_account {r : Account} : (s.set (.account a) r).ledger d = s.ledger d := by
  refine Store.ledger_congr (fun k hk => Store.set_of_ne ?_) d
  rintro rfl
  cases hk

theorem pot_eq_holding (s : Store) (a : Address) (d : Denom) : s.pot a d = s.holding a d := by
  refine Fin.ext ?_
  simp only [Store.pot, Store.holding, Store.ledger, Store.getDecoded]
  rcases s (.balance a d) with _ | (_ | _) <;> rfl

theorem applyMessage_edited [Crypto] {ctx : BlockContext} {m : Message} (h : Runs (applyMessage ctx sender m) s () s')
    (hm : Message.editsGroup m = some a) : ∃ g g' payer payments, Edited ctx sender a m s s' g g' payer payments := by
  obtain ⟨r, g, g', payer, payments, h⟩ := applyMessage_writesBack h hm
  obtain ⟨s₁, hpaid, rfl⟩ := h.paid
  refine ⟨g, g', payer, payments, ?_, ?_, h.member, ?_, s₁, hpaid, fun d => ledger_set_account⟩
  · rw [Store.group, Store.record_of_read h.read]
    exact h.group
  · rw [Store.group, Store.record_set]
    rfl
  · rw [← pot_eq_holding]
    exact h.edit

end Exec

namespace Edited

variable {ctx : BlockContext} {sender a payer : Address} {m : Message} {s s' : Store} {g g' : GroupAccount}
  {payments : List (Address × Amount)} {d : Denom}

theorem income (h : Edited ctx sender a m s s' g g' payer payments) (hne : a ≠ payer) :
    (s'.ledger g.contribution.denom).balance a = (s.ledger g.contribution.denom).balance a + dueTo a payments := by
  obtain ⟨s₁, hpaid, hledger⟩ := h.paid
  rw [hledger, Exec.balance_of_payAll hpaid hne, if_pos rfl]

theorem outlay (h : Edited ctx sender a m s s' g g' a payments) :
    (s'.ledger g.contribution.denom).balance a + paidOut a payments = (s.ledger g.contribution.denom).balance a := by
  obtain ⟨s₁, hpaid, hledger⟩ := h.paid
  rw [hledger, Exec.balance_of_payAll_src hpaid]

end Edited

/-! ## What an edit keeps -/

/-- What a policy says of the whole life of a group: the order of a rotation, or the rules of an accumulation. -/
def PayoutPolicy.terms : PayoutPolicy → List Address ⊕ ShareRules
  | .rotation order _ => .inl order
  | .accumulate rules => .inr rules

/-- `g'` has the members of `g` and what they agreed on. -/
structure GroupAccount.SameCharter (g g' : GroupAccount) : Prop where
  contribution : g'.contribution = g.contribution
  quorum : g'.quorum = g.quorum
  terms : g'.policy.terms = g.policy.terms
  members : g'.members.map (·.address) = g.members.map (·.address)

namespace GroupAccount.SameCharter

variable {g g' g'' : GroupAccount}

theorem advanceCycle (g : GroupAccount) (at_ : Height) : SameCharter g (g.advanceCycle at_) := by
  refine ⟨rfl, rfl, ?_, advanceCycle_addresses g at_⟩
  simp only [GroupAccount.advanceCycle, advancePolicy]
  split
  · rename_i hp
    rw [hp]
    rfl
  · rfl

end GroupAccount.SameCharter

theorem Exec.carryOut_eq_ok {g : GroupAccount} {pot : Amount} {r : GroupAccount × Address × Amount}
    (h : carryOut g pot = .ok r) : g.issueLoan pot = .ok r ∨ g.issueGrant = .ok r := by
  unfold carryOut at h
  split at h
  · cases h
  · split at h
    · exact .inl h
    · exact .inr h

def Message.closes : Message → Bool
  | .closeCycle _ | .groupPayout _ => true
  | _ => false

/-- An edit keeps to the cycle, closes it, or settles the round. -/
inductive GroupAccount.Turned (at_ : Height) (msg : Message) (g g' : GroupAccount) : Prop
  | kept (closes : msg.closes = false) (policy : g'.policy = g.policy) (cycle : g'.cycle = g.cycle)
      (start : g'.roundStartCycle = g.roundStartCycle)
  | closed (closes : msg.closes = true) (eq : g' = g.advanceCycle at_)
  | settled (closes : msg.closes = false) (cycle : g'.cycle = g.cycle) (start : g'.roundStartCycle = g.cycle)
      (loans : ∀ m ∈ g'.members, m.loan = none)

theorem GroupEdit.effect {ctx : BlockContext} {sender a payer : Address} {pot : Amount} {g g' : GroupAccount}
    {msg : Message} {payments : List (Address × Amount)} (h : GroupEdit ctx sender a pot g msg g' payer payments) :
    g.SameCharter g' ∧ g.Turned ctx.height msg g' := by
  cases h with
  | contribute h =>
    obtain ⟨m, members, -, hrep, rfl⟩ := GroupAccount.recordContribution_eq_ok h
    exact ⟨⟨rfl, rfl, rfl, hrep.addresses⟩, .kept rfl rfl rfl rfl⟩
  | payout hr hdue => exact ⟨.advanceCycle g _, .closed rfl rfl⟩
  | buyShares h =>
    obtain ⟨rules, m, m', members, -, hrep, -, -, rfl⟩ := GroupAccount.buyShares_eq_ok h
    exact ⟨⟨rfl, rfl, rfl, hrep.addresses⟩, .kept rfl rfl rfl rfl⟩
  | paySocial h =>
    obtain ⟨rules, m, members, fund, -, hrep, -, rfl⟩ := GroupAccount.paySocial_eq_ok h
    exact ⟨⟨rfl, rfl, rfl, hrep.addresses⟩, .kept rfl rfl rfl rfl⟩
  | propose h =>
    obtain ⟨rules, -, -, -, rfl⟩ := GroupAccount.openProposal_eq_ok h
    exact ⟨⟨rfl, rfl, rfl, rfl⟩, .kept rfl rfl rfl rfl⟩
  | approve h =>
    obtain ⟨-, p, -, -, -, rfl⟩ := GroupAccount.approve_eq_ok h
    exact ⟨⟨rfl, rfl, rfl, rfl⟩, .kept rfl rfl rfl rfl⟩
  | carryOut h hcarry =>
    obtain ⟨-, p, -, -, -, rfl⟩ := GroupAccount.approve_eq_ok h
    rcases Exec.carryOut_eq_ok hcarry with hloan | hgrant
    · obtain ⟨rules, p, gs, charge, due, m, members, -, -, -, -, -, -, -, hrep, rfl⟩ :=
        GroupAccount.issueLoan_eq_ok hloan
      exact ⟨⟨rfl, rfl, rfl, hrep.addresses⟩, .kept rfl rfl rfl rfl⟩
    · obtain ⟨p, fund, -, -, -, -, rfl⟩ := GroupAccount.issueGrant_eq_ok hgrant
      exact ⟨⟨rfl, rfl, rfl, rfl⟩, .kept rfl rfl rfl rfl⟩
  | repay h =>
    obtain ⟨m, m', members, loan, owed, hrep, -, -, -, -, -, -, -, rfl⟩ := GroupAccount.repay_eq_ok h
    exact ⟨⟨rfl, rfl, rfl, hrep.addresses⟩, .kept rfl rfl rfl rfl⟩
  | close h hdue => exact ⟨.advanceCycle g _, .closed rfl rfl⟩
  | shareOut hfund h =>
    obtain ⟨rules, members, -, -, hm, rfl⟩ := GroupAccount.shareOut_eq_ok h
    obtain ⟨haddresses, hloans, -⟩ := GroupAccount.settleMembers_eq_ok hm
    exact ⟨⟨rfl, rfl, rfl, haddresses⟩, .settled rfl rfl rfl hloans⟩

/-! ## Events -/

/-- Nonces and history pointers, which come last in a transaction. -/
def StoreEvent.isBookkeeping : StoreEvent → Bool
  | nonce _ | pointer .. => true
  | fee .. | message .. => false

theorem StoreEvent.took_of_isBookkeeping {ev : StoreEvent} (h : ev.isBookkeeping = true) : ev.took = none := by
  cases ev <;> first | rfl | cases h

/-- What an event makes of the group at `a`. -/
inductive GroupChange [Crypto] (a : Address) (s s' : Store) : StoreEvent → Prop where
  | quiet {ev : StoreEvent} (hev : ∀ sender m, ev.took = some (sender, m) → Exec.Message.editsGroup m ≠ some a)
      (hgroup : s'.group a = s.group a) : GroupChange a s s' ev
  | lost {ev : StoreEvent} (hev : ev.isBookkeeping = true) (hgroup : s'.group a = none) : GroupChange a s s' ev
  | founded {ctx : BlockContext} {sender : Address} {name : String} {members : List FoundingMember}
      {contribution : Contribution} {policy : PayoutPolicy} {quorum : Quorum} {g : GroupAccount}
      (hbefore : s.group a = none) (hafter : s'.group a = some g)
      (hnew : GroupAccount.new name (members.map (·.intoMember 0)) contribution policy quorum ctx.height = .ok g)
      (hmoney : ∀ d, s'.ledger d = s.ledger d) :
      GroupChange a s s' (.message ctx sender (.createGroup name members contribution policy quorum))
  | edited {ctx : BlockContext} {sender payer : Address} {m : Message} {g g' : GroupAccount}
      {payments : List (Address × Amount)} (h : Edited ctx sender a m s s' g g' payer payments) :
      GroupChange a s s' (.message ctx sender m)

/-- What an event does to the group at `a`. -/
inductive GroupStep [Crypto] (a : Address) (s s' : Store) : StoreEvent → Prop where
  | quiet {ev : StoreEvent} (hev : ∀ sender m, ev.took = some (sender, m) → Exec.Message.editsGroup m ≠ some a)
      (hgroup : s'.group a = s.group a) (hmoney : ∀ d, (s.ledger d).balance a ≤ (s'.ledger d).balance a) :
      GroupStep a s s' ev
  | lost {ev : StoreEvent} (hev : ev.isBookkeeping = true) (hgroup : s'.group a = none)
      (hmoney : ∀ d, (s.ledger d).balance a ≤ (s'.ledger d).balance a) : GroupStep a s s' ev
  | founded {ctx : BlockContext} {sender : Address} {name : String} {members : List FoundingMember}
      {contribution : Contribution} {policy : PayoutPolicy} {quorum : Quorum} {g : GroupAccount}
      (hbefore : s.group a = none) (hafter : s'.group a = some g)
      (hnew : GroupAccount.new name (members.map (·.intoMember 0)) contribution policy quorum ctx.height = .ok g)
      (hmoney : ∀ d, s'.ledger d = s.ledger d) :
      GroupStep a s s' (.message ctx sender (.createGroup name members contribution policy quorum))
  | edited {ctx : BlockContext} {sender payer : Address} {m : Message} {g g' : GroupAccount}
      {payments : List (Address × Amount)} (hsender : a ≠ sender) (h : Edited ctx sender a m s s' g g' payer payments) :
      GroupStep a s s' (.message ctx sender m)

theorem Store.group_congr {s s' : Store} {a : Address} (h : (s'.record a).kind = (s.record a).kind) :
    s'.group a = s.group a := by
  unfold group Account.asGroup
  rw [h]

section

variable [Crypto] {s s' : Store} {a b : Address} {ev : StoreEvent} {r : Account}

theorem groupChange_of_bookkeeping (hev : ev.isBookkeeping = true)
    (hkind : r.kind = (Exec.readOrFresh s b).kind) : GroupChange a s (s.set (.account b) r) ev := by
  have hquiet : ((s.set (.account b) r).record a).kind = (s.record a).kind →
      GroupChange a s (s.set (.account b) r) ev :=
    fun hsame => .quiet (fun _ _ hm => by cases (StoreEvent.took_of_isBookkeeping hev).symm.trans hm)
      (Store.group_congr hsame)
  by_cases ha : a = b
  · subst ha
    rw [Store.record_set, hkind] at hquiet
    rcases Exec.readOrFresh_cases s a with hread | ⟨hread, -⟩
    · exact hquiet (by rw [hread])
    · refine .lost hev ?_
      rw [Store.group, Store.record_set, Account.asGroup, hkind, hread]
      rfl
  · exact hquiet (by rw [Store.record_set_of_ne ha])

theorem Emits.groupChange {es : List StoreEvent} (h : Emits s es s') (a : Address) :
    ∃ ev, es = [ev] ∧ GroupChange a s s' ev := by
  cases h with
  | @fee _ payer d x hpay =>
    refine ⟨_, rfl, .quiet (fun _ _ hm => by cases hm) (Store.group_congr ?_)⟩
    rw [Store.record_congr ((Exec.paid_of_runs hpay).frame rfl)]
  | nonce b => exact ⟨_, rfl, groupChange_of_bookkeeping rfl rfl⟩
  | pointer b p => exact ⟨_, rfl, groupChange_of_bookkeeping rfl rfl⟩
  | @message _ ctx sender m hm =>
    refine ⟨_, rfl, ?_⟩
    by_cases hedits : Exec.Message.editsGroup m = some a
    · obtain ⟨g, g', payer, payments, hedited⟩ := Exec.applyMessage_edited hm hedits
      exact .edited hedited
    have hev : ∀ sender' m', (StoreEvent.message ctx sender m).took = some (sender', m') →
        Exec.Message.editsGroup m' ≠ some a := by
      rintro _ _ ⟨⟩
      exact hedits
    by_cases hfounds : Exec.Message.founds m = true
    · cases m <;> cases hfounds
      obtain ⟨address, g, key, -, hnew, hkind, rfl⟩ := Exec.createGroup_runs hm
      by_cases haddress : a = address
      · subst haddress
        refine .founded ?_ ?_ hnew fun d => Exec.ledger_set_account
        · rw [Store.group, Account.asGroup, hkind]
        · rw [Store.group, Store.record_set]
          rfl
      · exact .quiet hev (Store.group_congr (by rw [Store.record_set_of_ne haddress]))
    · exact .quiet hev (Store.group_congr (Exec.applyMessage_kindKept hm (by simpa using hfounds) hedits).2)

theorem Acts.balance_le {es : List StoreEvent} {seed : Bytes} (h : Acts s es s') (happart : AddressesApart)
    (ha : a = Address.derived .groupAddress seed)
    (hev : ∀ ev ∈ es, ∀ sender m, ev.took = some (sender, m) → Exec.Message.editsGroup m ≠ some a) (d : Denom) :
    (s.ledger d).balance a ≤ (s'.ledger d).balance a := by
  obtain ⟨hemits, howned⟩ := h
  have hunowned : ¬ a.Owned := ha ▸ happart.keyGroup.not_owned seed
  have hstaking : a ≠ stakingAccount := ha ▸ happart.groupModule seed _
  cases hemits with
  | @fee _ payer d' x hpay =>
    have hpayer : a ≠ payer := fun h => hunowned (h ▸ howned _ (.head _) payer rfl)
    rw [Exec.balance_of_bankTransfer hpay hpayer]
    exact Nat.le_add_right _ _
  | nonce b => exact (congrArg (·.balance a) Exec.ledger_set_account).ge
  | pointer b p => exact (congrArg (·.balance a) Exec.ledger_set_account).ge
  | @message _ ctx sender m hm =>
    by_contra hlt
    rcases (Exec.applyMessage_move hm d).debits a (not_le.1 hlt) with h | ⟨h, -⟩ | ⟨-, h⟩
    · exact hunowned (h ▸ howned _ (.head _) sender rfl)
    · refine hev _ (.head _) sender m rfl ?_
      cases m <;> first | exact h | cases h
    · exact hstaking h

theorem Acts.groupStep {es : List StoreEvent} {seed : Bytes} (h : Acts s es s') (happart : AddressesApart)
    (ha : a = Address.derived .groupAddress seed) : ∃ ev, es = [ev] ∧ GroupStep a s s' ev := by
  obtain ⟨ev, rfl, hchange⟩ := h.1.groupChange a
  refine ⟨ev, rfl, ?_⟩
  cases hchange with
  | quiet hev hgroup =>
    exact .quiet hev hgroup (h.balance_le happart ha fun ev' hmem => List.mem_singleton.1 hmem ▸ hev)
  | lost hev hgroup =>
    refine .lost hev hgroup (h.balance_le happart ha fun ev' hmem sender m hm => ?_)
    obtain rfl := List.mem_singleton.1 hmem
    cases (StoreEvent.took_of_isBookkeeping hev).symm.trans hm
  | founded hbefore hafter hnew hmoney => exact .founded hbefore hafter hnew hmoney
  | @edited ctx sender payer m g g' payments hedited =>
    refine .edited (fun heq => ?_) hedited
    exact happart.keyGroup.not_owned seed (ha ▸ heq ▸ h.2 _ (.head _) sender rfl)

end

end AfroLink
