import AfroLink.Executor.Lemmas.Transaction

/-!
# Whom a transaction pays

Most payments name who is paid in the message.
-/

namespace AfroLink

def Store.groupAt (s : Store) (group : Address) : Option GroupAccount :=
  match s.getDecoded (.account group) with
  | .ok (some a) => a.asGroup
  | _ => none

/-- What a message that succeeds pays out of the pot of a group with this record. -/
def Message.dues (sender : Address) (g : GroupAccount) (pot : Amount) : Message → List (Address × Amount)
  | .groupPayout _ => g.nextRecipient.toList.map (·, pot)
  | .approveGroupAction _ =>
    match g.approve sender with
    | .ok (g', true) =>
      match Exec.carryOut g' pot with
      | .ok (_, beneficiary, amount) => [(beneficiary, amount)]
      | .error _ => []
    | _ => []
  | .shareOut _ =>
    match g.lendable pot with
    | .ok fund =>
      match g.shareOut fund with
      | .ok (_, payments) => payments
      | .error _ => []
    | .error _ => []
  | _ => []

def dueTo (a : Address) (payments : List (Address × Amount)) : ℕ :=
  ((payments.filter (·.1 = a)).map (·.2.val)).sum

/-- What the record of the group says a message pays to `a` in `d`. -/
def Message.paysTo (sender : Address) (s : Store) (a : Address) (d : Denom) (m : Message) : ℕ :=
  match m.paysFromGroup with
  | none => 0
  | some group =>
    match s.groupAt group with
    | none => 0
    | some g => if g.contribution.denom = d then dueTo a (m.dues sender g (s.pot group d)) else 0

/-! ## Payments -/

theorem dueTo_cons {a b : Address} {x : Amount} {rest : List (Address × Amount)} :
    dueTo a ((b, x) :: rest) = (if b = a then x.val else 0) + dueTo a rest := by
  unfold dueTo
  by_cases h : b = a <;> simp [h]

@[simp] theorem dueTo_nil {a : Address} : dueTo a [] = 0 := rfl

namespace Exec

variable {s s' : Store} {src dst a sender group : Address} {d d' : Denom} {x : Amount}

theorem balance_of_bankTransfer (h : Runs (bankTransfer src dst d x) s () s') (ha : a ≠ src) :
    (s'.ledger d').balance a = (s.ledger d').balance a + if dst = a ∧ d = d' then x.val else 0 := by
  cases paid_of_runs h with
  | self hself =>
    subst hself
    simp [ha.symm]
  | moved y z hne hy hz =>
    by_cases hd : d' = d
    · subst hd
      by_cases hdst : dst = a
      · subst hdst
        simp [Store.ledger_withBalance, hz]
      · have hdst' : a ≠ dst := fun h => hdst h.symm
        simp [Store.ledger_withBalance, hdst, hdst', ha]
    · have hd' : ¬ d = d' := fun h => hd h.symm
      simp [Store.ledger_withBalance_of_ne hd, hd']

theorem balance_of_payAll {payments : List (Address × Amount)} (h : Runs (payAll src d payments) s () s')
    (ha : a ≠ src) :
    (s'.ledger d').balance a = (s.ledger d').balance a + if d = d' then dueTo a payments else 0 := by
  induction payments generalizing s with
  | nil =>
    obtain ⟨-, rfl⟩ := Runs.pure_iff.1 h
    simp
  | cons p rest ih =>
    obtain ⟨u, s₁, hpay, hrest⟩ := Runs.bind_iff.1 h
    rw [ih hrest, balance_of_bankTransfer hpay ha, dueTo_cons]
    by_cases hd : d = d' <;> simp [hd, Nat.add_assoc]

/-! ## Groups -/

theorem Loads.groupAt {r : Account} {g : GroupAccount} (h : Loads s sender group (r, g)) :
    s.groupAt group = some g := by
  unfold Store.groupAt
  rw [h.read]
  exact h.group

theorem paysTo_of_groupAt {m : Message} {g : GroupAccount} (hm : m.paysFromGroup = some group)
    (hg : s.groupAt group = some g) :
    m.paysTo sender s a d' = if g.contribution.denom = d' then dueTo a (m.dues sender g (s.pot group d')) else 0 := by
  unfold Message.paysTo
  rw [hm]
  simp only [hg]

theorem dues_of_edit {ctx : BlockContext} {m : Message} {pot : Amount} {g g' : GroupAccount} {payer : Address}
    {payments : List (Address × Amount)} (h : GroupEdit ctx sender group pot g m g' payer payments)
    (hm : m.paysFromGroup = some group) : payer = group ∧ m.dues sender g pot = payments := by
  cases h with
  | payout hr => exact ⟨rfl, by simp [Message.dues, hr]⟩
  | approve h => exact ⟨rfl, by simp [Message.dues, h]⟩
  | carryOut h hcarry => exact ⟨rfl, by simp [Message.dues, h, hcarry]⟩
  | shareOut hfund h => exact ⟨rfl, by simp [Message.dues, hfund, h]⟩
  | contribute | buyShares | paySocial | propose | repay | close => cases hm

/-! ## Messages -/

variable [Crypto] {ctx : BlockContext} {m : Message}

theorem balance_of_paysFromGroup (h : Runs (applyMessage ctx sender m) s () s') (hm : m.paysFromGroup = some group)
    (ha : a ≠ group) : (s'.ledger d').balance a = (s.ledger d').balance a + m.paysTo sender s a d' := by
  obtain ⟨r, g, g', payer, payments, h⟩ := applyMessage_writesBack h (Message.editsGroup_of_pays hm)
  obtain ⟨s₁, hpaid, rfl⟩ := h.paid
  obtain ⟨rfl, hdues⟩ := dues_of_edit h.edit hm
  rw [paysTo_of_groupAt hm h.groupAt]
  refine (balance_of_payAll hpaid ha).trans ?_
  by_cases hd : g.contribution.denom = d'
  · rw [if_pos hd, if_pos hd, ← hd, hdues]
  · rw [if_neg hd, if_neg hd]

theorem balance_of_frame (h : Runs (applyMessage ctx sender m) s () s') (hpays : m.paysFromGroup = none)
    (ha : ¬ m.MayWrite sender (.balance a d')) :
    (s'.ledger d').balance a = (s.ledger d').balance a + m.paysTo sender s a d' := by
  have hcell := (applyMessage_keeps.run h).1.frame _ ha
  simp [Store.ledger, hcell, Message.paysTo, hpays]

/-- An account a message does not name gets from it what the record of the group it pays from says. -/
theorem balance_of_applyMessage (h : Runs (applyMessage ctx sender m) s () s') (hsender : a ≠ sender)
    (hnamed : a ∉ m.touches) (hstaking : a ≠ stakingAccount) :
    (s'.ledger d').balance a = (s.ledger d').balance a + m.paysTo sender s a d' := by
  cases m with
  | groupPayout group | approveGroupAction group | shareOut group =>
    exact balance_of_paysFromGroup h rfl (by simpa [Message.touches] using hnamed)
  | transfer dst d x reference =>
    have hdst : a ≠ dst := by simpa [Message.touches] using hnamed
    exact balance_of_frame h rfl (by simp [Message.MayWrite, hsender, hdst])
  | mint d dst x =>
    have hdst : a ≠ dst := by simpa [Message.touches] using hnamed
    exact balance_of_frame h rfl (by simp [Message.MayWrite, hdst])
  | burn d x => exact balance_of_frame h rfl (by simp [Message.MayWrite, hsender])
  | contributeToGroup group | buyShares group | paySocialFund group | repayLoan group =>
    have hgroup : a ≠ group := by simpa [Message.touches] using hnamed
    refine balance_of_frame h rfl ?_
    rintro (hk | ⟨_, hk | hk⟩) <;> cases hk
    · exact hsender rfl
    · exact hgroup rfl
  | bond | addStake | withdrawUnbonded =>
    refine balance_of_frame h rfl ?_
    rintro (hk | hk | hk) <;> cases hk
    · exact hsender rfl
    · exact hstaking rfl
  | reportEquivocation evidence =>
    refine balance_of_frame h rfl ?_
    rintro (hk | hk | hk) <;> cases hk
    exact hstaking rfl
  | _ => exact balance_of_frame h rfl (Message.not_mayWrite (by simp))

/-- What the messages pay to `a` in `d` by the records of the groups, each in the store it is applied to. -/
def paidTo (ctx : BlockContext) (sender a : Address) (d : Denom) : List Message → Store → ℕ
  | [], _ => 0
  | m :: rest, s =>
    m.paysTo sender s a d +
      match applyMessage ctx sender m s with
      | .ok _ s' => paidTo ctx sender a d rest s'
      | .error _ _ => 0

theorem paidTo_eq_zero {ms : List Message} (h : ∀ m ∈ ms, m.paysFromGroup = none) (s : Store) :
    paidTo ctx sender a d' ms s = 0 := by
  induction ms generalizing s with
  | nil => rfl
  | cons m rest ih =>
    have hm : m.paysTo sender s a d' = 0 := by simp [Message.paysTo, h m (.head _)]
    rw [paidTo, hm]
    split
    · rw [ih fun m' hm' => h m' (.tail _ hm')]
    · rfl

theorem balance_of_applyMessages {ms : List Message} (d' : Denom) (h : Runs (applyMessages ctx sender ms) s () s')
    (hsender : a ≠ sender) (hnamed : a ∉ ms.flatMap Message.touches) (hstaking : a ≠ stakingAccount) :
    (s'.ledger d').balance a = (s.ledger d').balance a + paidTo ctx sender a d' ms s := by
  induction ms generalizing s with
  | nil =>
    obtain ⟨-, rfl⟩ := Runs.pure_iff.1 h
    rfl
  | cons m rest ih =>
    obtain ⟨u, s₁, hm, hrest⟩ := Runs.bind_iff.1 h
    rw [List.flatMap_cons, List.mem_append, not_or] at hnamed
    rw [ih hrest hnamed.2, balance_of_applyMessage hm hsender hnamed.1 hstaking]
    unfold Runs at hm
    simp [paidTo, hm, Nat.add_assoc]

end Exec

end AfroLink
