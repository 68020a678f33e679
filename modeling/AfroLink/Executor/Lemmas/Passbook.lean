import AfroLink.Base.Origin
import AfroLink.Executor.Lemmas.Queue

/-!
# The passbook of an operator

What an operator has bonded, unbonded, withdrawn and lost over a run, written down event by event from what the
messages say and what happens to the coin, and how the queue follows from it.
-/

namespace AfroLink

/-- An `Unbond` with the time of its block and the waiting time in force. -/
structure Release where
  amount : Amount
  time : Timestamp
  wait : U64
deriving DecidableEq

structure Passbook where
  bonded : ℕ := 0
  releases : List Release := []
  /-- The coin each withdrawal brought, with the time of its block. -/
  withdrawals : List (Timestamp × ℕ) := []
  /-- The coin that disappeared in slashes of the operator. -/
  slashed : ℕ := 0

namespace Passbook

variable (operator : Address)

/-- One event later; `s` and `s'` are the states around it. -/
def after (s s' : Store) (book : Passbook) : StoreEvent → Passbook
  | .message _ sender (.bond _ _ x) | .message _ sender (.addStake x) =>
    if sender = operator then { book with bonded := book.bonded + x.val } else book
  | .message ctx sender (.unbond x) =>
    if sender = operator then
      { book with releases := book.releases ++ [⟨x, ctx.time, s.chainParams.staking.unbondingMs⟩] }
    else book
  | .message ctx sender .withdrawUnbonded =>
    if sender = operator then
      { book with withdrawals := book.withdrawals ++
          [(ctx.time, (s'.ledger .native).balance operator - (s.ledger .native).balance operator)] }
    else book
  | .message _ _ (.reportEquivocation evidence) =>
    if evidence.validator = operator then
      { book with slashed := book.slashed + ((s.ledger .native).supply - (s'.ledger .native).supply) }
    else book
  | _ => book

def Keeps [Crypto] (p : Store × Passbook) (es : List StoreEvent) (p' : Store × Passbook) : Prop :=
  Emits p.1 es p'.1 ∧ p'.2 = es.foldl (after operator p.1 p'.1) p.2

def withdrawn (book : Passbook) : ℕ := (book.withdrawals.map Prod.snd).sum

end Passbook

/-- An entry that a release made, cut by slashes perhaps. -/
def Release.Made (u : Unbonding) (r : Release) : Prop :=
  u.amount.val ≤ r.amount.val ∧ u.completesAt = Fin.saturatingAdd r.time r.wait

/-- A withdrawal is made of releases whose time had come. -/
def Release.Pays (w : Timestamp × ℕ) (rs : List Release) : Prop :=
  w.2 ≤ (rs.map fun r => r.amount.val).sum ∧ ∀ r ∈ rs, Fin.saturatingAdd r.time r.wait ≤ w.1

/-- The state agrees with the passbook: the queue stems from releases not paid out yet, every withdrawal was made of
others, and what is still there is what was bonded and neither withdrawn nor slashed. -/
structure Passbook.Agrees (operator : Address) (s : Store) (book : Passbook) : Prop where
  queue : ∃ parts : List (List Release), Stems Release.Made (s.queueAt operator) book.releases parts.flatten ∧
    List.Forall₂ Release.Pays book.withdrawals parts
  balance : s.stakeOf operator + book.withdrawn + book.slashed = book.bonded

namespace Passbook

variable {operator : Address} {s s' : Store} {book book' : Passbook}

theorem Agrees.congr (h : Agrees operator s book) (hbond : s'.bondAt operator = s.bondAt operator)
    (hqueue : s'.queueAt operator = s.queueAt operator) : Agrees operator s' book := by
  refine ⟨hqueue ▸ h.queue, ?_⟩
  rw [← h.balance, Store.stakeOf, Store.stakeOf, hbond, hqueue]

theorem pays_of_matured {now : Timestamp} {queue : List Unbonding} {rs : List Release}
    (h : List.Forall₂ Release.Made (queue.filter fun u => u.matured now) rs) :
    Release.Pays (now, queued (queue.filter fun u => u.matured now)) rs := by
  have hmatured : ∀ u ∈ queue.filter fun u => u.matured now, u.completesAt ≤ now := by
    intro u hu
    exact of_decide_eq_true (List.mem_filter.1 hu).2
  generalize queue.filter (fun u => u.matured now) = matured at h hmatured
  induction h with
  | nil => exact ⟨le_rfl, nofun⟩
  | @cons u r us rs hmade _ ih =>
    obtain ⟨hsum, htimes⟩ := ih fun w hw => hmatured w (.tail _ hw)
    constructor
    · simp only [queued_cons, List.map_cons, List.sum_cons]
      exact Nat.add_le_add hmade.1 hsum
    · intro w hw
      rcases List.mem_cons.1 hw with rfl | hw
      · rw [← hmade.2]
        exact hmatured u (.head _)
      · exact htimes w hw

theorem Agrees.other (h : Agrees operator s book) (hafter : book' = book) (hbond : s'.bondAt operator = s.bondAt operator)
    (hqueue : s'.queueAt operator = s.queueAt operator) : Agrees operator s' book' := by
  rw [hafter]
  exact h.congr hbond hqueue

variable [Crypto] {ctx : BlockContext} {sender : Address} {m : Message}

theorem Agrees.step (h : Agrees operator s book) (hstep : StakeStep ctx sender s s' m) (hsender : sender ≠ stakingAccount) :
    Agrees operator s' (after operator s s' book (.message ctx sender m)) := by
  have hbalance := h.balance
  cases hstep with
  | bond hnone _ hbonds hqueues _ _ _ =>
    have hqueue := congrFun hqueues operator
    by_cases ha : sender = operator
    · subst ha
      rw [after, if_pos rfl]
      refine ⟨hqueue ▸ h.queue, ?_⟩
      simp only [Store.stakeOf, hnone, hqueue, hbonds, Function.update_self, Option.elim, Bond.new, withdrawn] at hbalance ⊢
      omega
    · exact h.other (if_neg ha) (by rw [hbonds, Function.update_of_ne (Ne.symm ha)]) hqueue
  | addStake hb hadd hbonds hqueues _ _ =>
    have hqueue := congrFun hqueues operator
    by_cases ha : sender = operator
    · subst ha
      rw [after, if_pos rfl]
      refine ⟨hqueue ▸ h.queue, ?_⟩
      simp only [Store.stakeOf, hb, hqueue, hbonds, Function.update_self, Option.elim, withdrawn] at hbalance ⊢
      omega
    · exact h.other (if_neg ha) (by rw [hbonds, Function.update_of_ne (Ne.symm ha)]) hqueue
  | unbond hb hle hsub hbonds hqueues _ _ =>
    by_cases ha : sender = operator
    · subst ha
      rw [after, if_pos rfl]
      obtain ⟨parts, hstems, hpays⟩ := h.queue
      refine ⟨⟨parts, ?_, hpays⟩, ?_⟩
      · rw [hqueues, Function.update_self]
        exact hstems.push ⟨le_rfl, rfl⟩
      · simp only [Store.stakeOf, hb, hqueues, hbonds, Function.update_self, Option.elim, withdrawn, queued_append,
          queued_cons, queued_nil] at hbalance ⊢
        omega
    · exact h.other (if_neg ha) (by rw [hbonds, Function.update_of_ne (Ne.symm ha)])
        (by rw [hqueues, Function.update_of_ne (Ne.symm ha)])
  | @withdraw total htotal hbonds hqueues _ hpaid =>
    by_cases ha : sender = operator
    · subst ha
      rw [after, if_pos rfl]
      -- the coin that arrives is what the matured entries hold
      have hcoin : (s'.ledger .native).balance sender - (s.ledger .native).balance sender =
          queued ((s.queueAt sender).filter fun u => u.matured ctx.time) := by
        rcases hpaid with ⟨hzero, hledger⟩ | hpaid
        · rw [hledger]
          omega
        · have := hpaid.credit (Ne.symm hsender)
          omega
      rw [hcoin]
      obtain ⟨parts, hstems, hpays⟩ := h.queue
      obtain ⟨taken, hrest, htaken⟩ := hstems.take fun u => u.matured ctx.time
      refine ⟨⟨parts ++ [taken], ?_, ?_⟩, ?_⟩
      · rw [hqueues, Function.update_self, List.flatten_append, List.flatten_singleton]
        exact hrest
      · exact List.rel_append hpays (.cons (pays_of_matured htaken) .nil)
      · have hsplit := queued_filter_add (fun u => u.matured ctx.time) (s.queueAt sender)
        simp only [Store.stakeOf, hqueues, hbonds, Function.update_self, withdrawn, List.map_append, List.sum_append,
          List.map_cons, List.map_nil, List.sum_cons, List.sum_nil] at hbalance ⊢
        omega
    · exact h.other (if_neg ha) (congrFun hbonds operator) (by rw [hqueues, Function.update_of_ne (Ne.symm ha)])
  | @slash evidence set b v total _ _ hb _ _ htotal hbonds hqueues _ _ hsupply =>
    by_cases ha : evidence.validator = operator
    · subst ha
      rw [after, if_pos rfl]
      obtain ⟨parts, hstems, hpays⟩ := h.queue
      refine ⟨⟨parts, ?_, hpays⟩, ?_⟩
      · rw [hqueues, Function.update_self]
        refine hstems.map fun u r hmade => ⟨(Staking.slashEntry_amount_le _ u).trans hmade.1, ?_⟩
        rw [Staking.slashEntry_completesAt]
        exact hmade.2
      · have hcut := Staking.cut_add_fraction b.bonded
        have hle := Staking.queued_slash_le evidence.first.vote.height (s.queueAt evidence.validator)
        unfold Staking.slashTotal at htotal
        simp only [Store.stakeOf, hb, hqueues, hbonds, Function.update_self, Option.elim, withdrawn] at hbalance ⊢
        omega
    · exact h.other (if_neg ha) (by rw [hbonds, Function.update_of_ne (Ne.symm ha)])
        (by rw [hqueues, Function.update_of_ne (Ne.symm ha)])
  | other hm hframe =>
    obtain ⟨hbonds, hqueues, -⟩ := Store.books_of_frame hframe
    refine h.other ?_ (congrFun hbonds operator) (congrFun hqueues operator)
    cases m <;> first | rfl | cases hm

theorem Agrees.keeps {es : List StoreEvent} (h : Agrees operator s book) (hs : s.Filed)
    (hstep : Keeps operator (s, book) es (s', book')) (hactor : ∀ ev ∈ es, ∀ a, ev.actor = some a → a ≠ stakingAccount) :
    Agrees operator s' book' := by
  obtain ⟨hemits, hbook⟩ := hstep
  have hquiet : es.filterMap StoreEvent.took = [] → book' = book → Agrees operator s' book' := by
    intro hes hsame
    obtain ⟨hbonds, hqueues, -⟩ := Store.books_of_frame (hemits.books hes)
    exact h.other hsame (congrFun hbonds operator) (congrFun hqueues operator)
  cases hemits with
  | @message _ ctx sender m hm =>
    have hsame : book' = after operator s s' book (.message ctx sender m) := hbook
    rw [hsame]
    exact h.step (Exec.applyMessage_stake hs hm) (hactor _ (.head _) sender rfl)
  | fee hpay => exact hquiet rfl hbook
  | nonce a => exact hquiet rfl hbook
  | pointer a p => exact hquiet rfl hbook

end Passbook

end AfroLink
