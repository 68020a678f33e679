import AfroLink.Executor.Lemmas.Governance
import AfroLink.Executor.Theorems.Unbonding

/-!
# What a candidate slot costs

`Bond` puts its sender into the candidate index and nothing takes it out again.
-/

namespace AfroLink

open Exec

section

variable [Crypto] {ctx : BlockContext} {sender : Address} {m : Message} {start s s' t : Store} {es : List StoreEvent}

def Store.maturedAt (s : Store) (operator : Address) (now : Timestamp) : ℕ :=
  queued ((s.queueAt operator).filter fun e => e.matured now)

/-- The operators in the index have put up the smallest bond each, all together. -/
def Store.SlotsPriced (s : Store) : Prop := s.chainParams.staking.minBond.val * s.candidates.length ≤ s.escrow.debt

/-- A withdrawal takes no more than is there beyond the price of the slots. -/
def Store.Covers (s : Store) : StoreEvent → Prop
  | .message ctx sender .withdrawUnbonded =>
    s.chainParams.staking.minBond.val * s.candidates.length + s.maturedAt sender ctx.time ≤ s.escrow.debt
  | _ => True

/-- A step that leaves the staking parameters as they are and slashes nobody. -/
structure Steady (s : Store) (es : List StoreEvent) (s' : Store) : Prop where
  emits : Emits s es s'
  params : s'.chainParams.staking = s.chainParams.staking
  unslashed : ∀ ctx sender evidence, .message ctx sender (.reportEquivocation evidence) ∉ es

/-- What a step does to the slots and to the stake behind them. -/
inductive SlotStep (s s' : Store) : List StoreEvent → Prop where
  | taken {ctx : BlockContext} {sender : Address} {pk : PublicKey} {country : CountryCode} {x : Amount}
      (hmin : s.chainParams.staking.minBond ≤ x) (hslots : s'.candidates.length = s.candidates.length + 1)
      (hstake : s'.escrow.debt = s.escrow.debt + x.val) : SlotStep s s' [.message ctx sender (.bond pk country x)]
  | kept {es : List StoreEvent} (hslots : s'.candidates.length = s.candidates.length)
      (hstake : s.escrow.debt ≤ s'.escrow.debt)
      (hes : ∀ ctx sender, es ≠ [.message ctx sender .withdrawUnbonded]) : SlotStep s s' es
  | withdrawn {ctx : BlockContext} {sender : Address} (hslots : s'.candidates.length = s.candidates.length)
      (hstake : s'.escrow.debt + s.maturedAt sender ctx.time = s.escrow.debt) :
      SlotStep s s' [.message ctx sender .withdrawUnbonded]

theorem Store.debt_congr (hbonds : s'.bondAt = s.bondAt) (hqueues : s'.queueAt = s.queueAt) :
    s'.escrow.debt = s.escrow.debt := by
  unfold Escrow.debt Store.escrow Store.stakeOf
  rw [hbonds, hqueues]

theorem Store.debt_update {a : Address} {b : Option Bond} {queue : List Unbonding}
    (hbonds : s'.bondAt = Function.update s.bondAt a b) (hqueues : s'.queueAt = Function.update s.queueAt a queue) :
    s'.escrow.debt + s.stakeOf a = s.escrow.debt + (b.elim 0 (·.bonded.val) + queued queue) := by
  have howed : s'.escrow.owed = Function.update s.escrow.owed a _ := Store.stakeOf_update hbonds hqueues
  exact Escrow.debt_update howed

theorem StakeStep.slots (h : StakeStep ctx sender s s' m) (hm : ∀ evidence, m ≠ .reportEquivocation evidence) :
    SlotStep s s' [.message ctx sender m] := by
  cases h with
  | @bond pk country x v hnone hmin hbonds hqueues hread hindex _ =>
    have hqueues : s'.queueAt = Function.update s.queueAt sender (s.queueAt sender) := by simp [hqueues]
    have hdebt := Store.debt_update hbonds hqueues
    simp only [Store.stakeOf, hnone, Bond.new, Option.elim] at hdebt
    refine .taken hmin ?_ (by omega)
    have hbefore : s.candidates = v.getD [] := Store.candidates_of_read hread
    have hafter : s'.candidates = (v.getD [] ++ [sender]).insertionSort (· ≤ ·) := by
      simp only [Store.candidates, hindex]
    rw [hafter, hbefore, List.length_insertionSort, List.length_append, List.length_singleton]
  | @addStake x bonded b hb hadd hbonds hqueues hindex _ =>
    have hqueues : s'.queueAt = Function.update s.queueAt sender (s.queueAt sender) := by simp [hqueues]
    have hdebt := Store.debt_update hbonds hqueues
    simp only [Store.stakeOf, hb, Option.elim] at hdebt
    exact .kept (by rw [Store.candidates_congr hindex]) (by omega) fun _ _ heq => by cases heq
  | @unbond x bonded b hb hle hsub hbonds hqueues hindex _ =>
    have hdebt := Store.debt_update hbonds hqueues
    simp only [Store.stakeOf, hb, Option.elim, queued_append, queued_cons, queued_nil] at hdebt
    exact .kept (by rw [Store.candidates_congr hindex]) (by omega) fun _ _ heq => by cases heq
  | withdraw _ hbonds hqueues hindex _ =>
    have hbonds : s'.bondAt = Function.update s.bondAt sender (s.bondAt sender) := by simp [hbonds]
    have hdebt := Store.debt_update hbonds hqueues
    have hsplit := queued_filter_add (fun e => e.matured ctx.time) (s.queueAt sender)
    simp only [Store.stakeOf] at hdebt
    refine .withdrawn (by rw [Store.candidates_congr hindex]) ?_
    unfold Store.maturedAt
    omega
  | slash => exact (hm _ rfl).elim
  | other hm' hframe =>
    obtain ⟨hbonds, hqueues, hindex⟩ := Store.books_of_frame hframe
    have hdebt : s'.escrow.debt = s.escrow.debt := Store.debt_congr hbonds hqueues
    refine .kept (by rw [Store.candidates_congr hindex]) hdebt.ge ?_
    rintro ctx sender heq
    cases heq
    cases hm'

theorem Steady.slots (hs : s.Filed) (h : Steady s es s') : SlotStep s s' es := by
  rcases h.emits.quiet_or_message with hes | ⟨ctx, sender, m, rfl, hm⟩
  · obtain ⟨hbonds, hqueues, hindex⟩ := Store.books_of_frame (h.emits.books hes)
    have hdebt : s'.escrow.debt = s.escrow.debt := Store.debt_congr hbonds hqueues
    refine .kept (by rw [Store.candidates_congr hindex]) hdebt.ge ?_
    rintro ctx sender rfl
    cases hes
  · refine (applyMessage_stake hs hm).slots ?_
    rintro evidence rfl
    exact h.unslashed _ _ evidence (.head _)

theorem Steady.single (h : Steady s es s') : ∃ ev, es = [ev] := h.emits.single

theorem Steady.priced (h : Steady s es s') (hs : s.Filed) (hpriced : s.SlotsPriced) (hcovers : ∀ ev ∈ es, s.Covers ev) :
    s'.SlotsPriced := by
  unfold Store.SlotsPriced at *
  rw [h.params]
  cases h.slots hs with
  | taken hmin hslots hstake =>
    rw [hslots, hstake, Nat.mul_succ]
    exact Nat.add_le_add hpriced hmin
  | kept hslots hstake _ =>
    rw [hslots]
    omega
  | withdrawn hslots hstake =>
    have hcover := hcovers _ (.head _)
    simp only [Store.Covers] at hcover
    rw [hslots]
    omega

theorem Steady.covers {ev : StoreEvent} (h : Steady s [ev] s') (hs : s.Filed) (hpriced : s'.SlotsPriced) :
    s.Covers ev := by
  unfold Store.Covers
  split
  · unfold Store.SlotsPriced at hpriced
    rw [h.params] at hpriced
    cases h.slots hs with
    | kept _ _ hne => exact (hne _ _ rfl).elim
    | withdrawn hslots hstake =>
      rw [hslots] at hpriced
      omega
  · trivial

/-- Nothing is carried out for the council, and nobody is reported. -/
def StoreEvent.plain : StoreEvent → Bool
  | .message _ _ (.executeGovAction _) | .message _ _ (.reportEquivocation _) => false
  | _ => true

theorem Emits.steady (h : Emits s es s') (hplain : ∀ ev ∈ es, ev.plain = true) : Steady s es s' where
  emits := h
  params := by
    rcases h.quiet_or_message with hes | ⟨ctx, sender, m, rfl, hm⟩
    · rw [Store.chainParams_congr (h.frame hes nofun nofun)]
    · have hgov : ∀ id, m ≠ .executeGovAction id := by
        rintro id rfl
        cases hplain _ (.head _)
      rw [Store.chainParams_congr (applyMessage_rules hgov hm (.inr (.inl rfl)))]
  unslashed ctx sender evidence hmem := by cases hplain _ hmem

theorem Trace.steady (h : Trace Emits start es s) (hplain : ∀ ev ∈ es, ev.plain = true) : Trace Steady start es s :=
  (h.restrict hplain).mono fun hstep => hstep.1.steady hstep.2

theorem Store.covers_of_took {ev : StoreEvent} (h : ev.took.map Prod.snd ≠ some .withdrawUnbonded) : s.Covers ev := by
  unfold Store.Covers
  split
  · exact (h rfl).elim
  · trivial

theorem Trace.steady_filed (h : Trace Steady start es s) (hstart : start.Filed) : s.Filed :=
  h.preserves (fun _ _ _ hs hstep => hstep.emits.filed hs) hstart

theorem Genesis.apply_priced [StateRoot] {g : Genesis} {limits : GenesisLimits} {b : Block}
    (h : Runs (g.apply limits) .empty b s) : s.SlotsPriced := by
  have hindex : s .bondIndex = none := Genesis.install_frame (Genesis.install_of_apply h) id nofun
  simp [Store.SlotsPriced, Store.candidates, hindex]

end

/-- In every run without changes of the staking parameters and without slashing, the slots are priced in every state
exactly if every withdrawal is covered. -/
theorem candidate_slots_priced_iff [Crypto] [StateRoot] (g : Genesis) (limits : GenesisLimits) (block : Block)
    (start : Store) (hgenesis : Runs (g.apply limits) .empty block start) (es : List StoreEvent) (s : Store) :
    (∀ before after t, es = before ++ after → Trace Steady start before t → Trace Steady t after s → t.SlotsPriced) ↔
    ∀ before ev after t, es = before ++ ev :: after → Trace Steady start before t →
      Trace Steady t (ev :: after) s → t.Covers ev := by
  have hfiled := (Genesis.apply_regular hgenesis).filed
  constructor
  · intro hpriced before ev after t heq hbefore hafter
    obtain ⟨t', hstep, hrest⟩ := hafter.of_cons Steady.single
    refine hstep.covers (Trace.steady_filed hbefore hfiled) ?_
    exact hpriced (before ++ [ev]) after t' (by simp [heq]) (hbefore.trans (.single hstep)) hrest
  · intro hcovers before after t heq hbefore hafter
    by_contra hnot
    obtain ⟨first, as, last, s₁, s₂, rfl, hfirst, hstep, hlast, hpriced, hloss⟩ :=
      hbefore.exists_loss (Genesis.apply_priced hgenesis) hnot
    obtain ⟨ev, rfl⟩ := hstep.single
    refine hloss (hstep.priced (Trace.steady_filed hfirst hfiled) hpriced ?_)
    rintro ev' hev
    obtain rfl := List.mem_singleton.1 hev
    exact hcovers first ev' (last ++ after) s₁ (by simp [heq]) hfirst (.cons hstep (hlast.trans hafter))

namespace Tagged

open Sample (chain key opened)

/-- Account 1 bonds the smallest bond, unbonds all of it, waits and withdraws. -/
def squatting : List (BlockContext × List Transaction) :=
  [(⟨1, 5⟩, [sent 1 0 [.bond (key 1).publicKey .UNSPECIFIED 10000000000000, .unbond 10000000000000]]),
   (⟨2, Fin.last _⟩, [sent 1 1 [.withdrawUnbonded]])]

theorem squatting_steady : Trace Steady (opened bonders) (runEvents ⟨chain⟩ squatting (opened bonders))
    (executeBlocks ⟨chain⟩ squatting (opened bonders)) := by
  refine Trace.steady (executeBlocks_trace ⟨chain⟩ squatting (opened bonders)) ?_
  decide +kernel

/-- The slot is taken and nothing is left behind it. -/
theorem candidate_slot_free : (∃ block, Runs ((Sample.genesisOf bonders).apply .devnet) .empty block (opened bonders)) ∧
    Trace Steady (opened bonders) (runEvents ⟨chain⟩ squatting (opened bonders))
      (executeBlocks ⟨chain⟩ squatting (opened bonders)) ∧
    (executeBlocks ⟨chain⟩ squatting (opened bonders)).candidates = [addressOf 1] ∧
    (executeBlocks ⟨chain⟩ squatting (opened bonders)).escrow.debt = 0 ∧
    ¬ (executeBlocks ⟨chain⟩ squatting (opened bonders)).SlotsPriced := by
  obtain ⟨block, hgenesis⟩ := bonders_genesis
  obtain ⟨hindex, hprice, hheld⟩ :
      (executeBlocks ⟨chain⟩ squatting (opened bonders)).candidates = [addressOf 1] ∧
      (executeBlocks ⟨chain⟩ squatting (opened bonders)).chainParams.staking.minBond = 10000000000000 ∧
      ((executeBlocks ⟨chain⟩ squatting (opened bonders)).ledger .native).balance stakingAccount = 0 := by
    decide +kernel
  have hbacked := ((executeBlocks_occurs ⟨chain⟩ squatting (opened bonders)).regular modulesApart hgenesis).backed
  refine ⟨⟨block, hgenesis⟩, squatting_steady, hindex, ?_⟩
  generalize executeBlocks ⟨chain⟩ squatting (opened bonders) = s at hindex hprice hheld hbacked ⊢
  have hdebt : s.escrow.debt = 0 := Nat.le_zero.1 (hbacked.trans hheld.le)
  refine ⟨hdebt, fun hpriced => ?_⟩
  unfold Store.SlotsPriced at hpriced
  rw [hindex, hprice, hdebt] at hpriced
  cases hpriced

/-- Without a withdrawal the slot stays paid for. -/
theorem candidate_slots_priced_bonding : (executeBlocks ⟨chain⟩ waiting (opened bonders)).SlotsPriced := by
  obtain ⟨block, hgenesis⟩ := bonders_genesis
  have hplain : ∀ ev ∈ runEvents ⟨chain⟩ waiting (opened bonders),
      ev.plain = true ∧ ev.took.map Prod.snd ≠ some .withdrawUnbonded := by
    decide +kernel
  have hrun := Trace.steady (executeBlocks_trace ⟨chain⟩ waiting (opened bonders)) fun ev hev => (hplain ev hev).1
  refine (candidate_slots_priced_iff _ _ block _ hgenesis _ _).2 ?_ _ [] _ (List.append_nil _).symm hrun (.nil _)
  intro before ev after t heq _ _
  have hev : ev ∈ before ++ ev :: after := by simp
  rw [← heq] at hev
  exact Store.covers_of_took (hplain ev hev).2

end Tagged

end AfroLink
