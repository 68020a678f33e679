import AfroLink.Executor.Lemmas.Savings
import AfroLink.Executor.Theorems.ShareOut

/-!
# Shares and what they stand for

The shares a member buys are counted beside the run, by the cycle they are bought in.
-/

namespace AfroLink

open Exec

/-! ## The shares a member buys -/

def StoreEvent.sharesFor (a x : Address) : StoreEvent → ℕ
  | .message _ sender (.buyShares b n) => if sender = x ∧ b = a then n.val else 0
  | _ => 0

/-- The shares `x` has bought of the group at `a`, by cycle. With a new group the book is empty. -/
def countShares (a x : Address) (s _ : Store) (bought : U64 → ℕ) (ev : StoreEvent) : U64 → ℕ :=
  match s.group a with
  | none => fun _ => 0
  | some g => Function.update bought g.cycle (bought g.cycle + ev.sharesFor a x)

def Counts [Crypto] (a x : Address) : Store × (U64 → ℕ) → List StoreEvent → Store × (U64 → ℕ) → Prop :=
  Trace.Beside Emits (countShares a x)

section

variable {a x sender : Address} {s s' : Store} {ev : StoreEvent} {bought : U64 → ℕ} {g g' : GroupAccount}
  {msg : Message} {ctx : BlockContext} {c : U64} {m m' : Member}

theorem countShares_none (h : s.group a = none) : countShares a x s s' bought ev = fun _ => 0 := by
  rw [countShares, h]

theorem countShares_some (h : s.group a = some g) :
    countShares a x s s' bought ev = Function.update bought g.cycle (bought g.cycle + ev.sharesFor a x) := by
  rw [countShares, h]

theorem countShares_of_zero (h : s.group a = some g) (hev : ev.sharesFor a x = 0) :
    countShares a x s s' bought ev = bought := by
  rw [countShares_some h, hev, Nat.add_zero, Function.update_eq_self]

theorem StoreEvent.sharesFor_of_elsewhere
    (hev : ∀ sender m, ev.took = some (sender, m) → Message.editsGroup m ≠ some a) : ev.sharesFor a x = 0 := by
  unfold sharesFor
  split
  · rename_i ctx sender b n
    rw [if_neg]
    rintro ⟨-, rfl⟩
    exact hev _ _ rfl rfl
  · rfl

theorem StoreEvent.sharesFor_of_not_member (hsender : g.isMember sender = true) (hx : g.member x = none) :
    (StoreEvent.message ctx sender msg).sharesFor a x = 0 := by
  unfold sharesFor
  split
  · rename_i heq
    cases heq
    rw [if_neg]
    rintro ⟨rfl, -⟩
    rw [GroupAccount.isMember, hx] at hsender
    cases hsender
  · rfl

theorem StoreEvent.sharesFor_of_saves (h : msg.saves sender x = false) :
    (StoreEvent.message ctx sender msg).sharesFor a x = 0 := by
  cases msg with
  | buyShares b n =>
    have hne : x ≠ sender := beq_eq_false_iff_ne.1 h
    exact if_neg fun heq => hne heq.1.symm
  | _ => rfl

end

/-! ## Credit -/

section

variable {a x sender : Address} {s s' : Store} {ev : StoreEvent} {bought : U64 → ℕ} {g g' : GroupAccount}
  {msg : Message} {ctx : BlockContext} {m m' : Member}

variable {payer : Address} {payments : List (Address × Amount)}

end

/-- The shares `x` bought in the open cycle, as the group counts them. -/
def GroupAccount.sharesNow (g : GroupAccount) (x : Address) : ℕ := (g.member x).elim 0 (·.sharesThisCycle.val)

/-- The shares a member may buy in a cycle; none of a rotating group. -/
def GroupAccount.ceiling (g : GroupAccount) : ℕ := g.shareRules.elim 0 (·.maxShares.val)

/-- `x` has bought nothing in the open cycle when the group is shared out, and nothing in a cycle that closes into
itself, the last one a word can count. -/
def Store.KeepsCounter (s : Store) (a x : Address) : StoreEvent → Prop
  | .message _ _ (.shareOut b) => b = a → ∀ g, s.group a = some g → g.sharesNow x = 0
  | .message _ _ (.closeCycle b) => b = a → ∀ g, s.group a = some g → g.cycle = Fin.last _ → g.sharesNow x = 0
  | _ => True

def Store.WithinCeiling (s : Store) (a : Address) (bought : U64 → ℕ) : Prop :=
  ∀ g rules, s.group a = some g → g.shareRules = some rules → ∀ c, bought c ≤ rules.maxShares.val

/-- The counter of the group is the entry of the book, and the entries are within the ceiling. -/
structure GroupAccount.Tallied (g : GroupAccount) (x : Address) (bought : U64 → ℕ) : Prop where
  future : ∀ c, g.cycle < c → bought c = 0
  now : bought g.cycle = g.sharesNow x
  within : ∀ c, bought c ≤ g.ceiling

section

variable {a x sender : Address} {s s' : Store} {ev : StoreEvent} {bought : U64 → ℕ} {g g' : GroupAccount}
  {msg : Message} {ctx : BlockContext} {m m' : Member}

theorem GroupAccount.sharesNow_some (h : g.member x = some m) : g.sharesNow x = m.sharesThisCycle.val := by
  rw [sharesNow, h, Option.elim]

theorem GroupAccount.sharesNow_none (h : g.member x = none) : g.sharesNow x = 0 := by
  rw [sharesNow, h, Option.elim]

theorem SavingMove.counter (h : SavingMove g sender msg m m') (hx : m.address = x) (hg : g.Chartered)
    (hedits : Message.editsGroup msg = some a)
    (hshareOut : ∀ b, msg = .shareOut b → m.sharesThisCycle.val = 0) :
    if msg.closes then (StoreEvent.message ctx sender msg).sharesFor a x = 0 ∧ m'.sharesThisCycle.val = 0
    else m'.sharesThisCycle.val = m.sharesThisCycle.val + (StoreEvent.message ctx sender msg).sharesFor a x ∧
      ((StoreEvent.message ctx sender msg).sharesFor a x = 0 ∨ m'.sharesThisCycle.val ≤ g.ceiling) := by
  cases h with
  | kept hmsg h =>
    have hzero : (StoreEvent.message ctx sender msg).sharesFor a x = 0 := StoreEvent.sharesFor_of_saves (hx ▸ hmsg)
    rw [Message.closes_of_saves hmsg, if_neg Bool.false_ne_true, hzero, h.thisCycle]
    exact ⟨rfl, .inl rfl⟩
  | contributed _ _ _ _ _ _ hthis =>
    rw [hthis]
    exact ⟨rfl, .inl rfl⟩
  | @bought _ n rules _ _ hsender hrules h =>
    cases hedits
    have hn : (StoreEvent.message ctx sender (.buyShares a n)).sharesFor a x = n.val :=
      if_pos ⟨hsender.symm.trans hx, rfl⟩
    -- ten shares are far from the end of the word
    have hcap : rules.maxShares.val ≤ 10 := hg.capped rules hrules
    have hwithin : m'.sharesThisCycle.val ≤ rules.maxShares.val := h.within
    have hval : m'.sharesThisCycle.val = min (m.sharesThisCycle.val + n.val) (2 ^ 32 - 1) := by
      rw [h.thisCycle, Fin.saturatingAdd_val]
    rw [hn]
    refine ⟨by omega, .inr ?_⟩
    rw [GroupAccount.ceiling, hrules]
    exact hwithin
  | closed hmsg _ _ _ _ hthis =>
    rw [hmsg, if_pos rfl, hthis]
    refine ⟨?_, rfl⟩
    cases msg <;> first | rfl | cases hmsg
  | settled _ _ _ hthis =>
    rw [hthis]
    exact ⟨(hshareOut _ rfl).symm, .inl rfl⟩

theorem SaverStep.tallied (h : SaverStep a x s s' ev) (hs : s.Chartered)
    (htally : ∀ g, s.group a = some g → g.Tallied x bought) (hev : s.KeepsCounter a x ev) :
    ∀ g, s'.group a = some g → g.Tallied x (countShares a x s s' bought ev) := by
  intro g' hg'
  cases h with
  | elsewhere hother hgroup =>
    rw [hgroup] at hg'
    rw [countShares_of_zero hg' (StoreEvent.sharesFor_of_elsewhere hother)]
    exact htally g' hg'
  | gone hgroup => cases hgroup.symm.trans hg'
  | founded _ hbefore hafter hfresh =>
    cases hafter.symm.trans hg'
    rw [countShares_none hbefore]
    refine ⟨fun _ _ => rfl, ?_, fun _ => Nat.zero_le _⟩
    cases hm : g'.member x with
    | none => rw [GroupAccount.sharesNow_none hm]
    | some m =>
      rw [GroupAccount.sharesNow_some hm, (hfresh m (List.mem_of_find?_eq_some hm)).2]
      rfl
  | @moved ctx sender msg g _ hbefore hafter hedits hsender hcharter hcycle hrotates hmove =>
    cases hafter.symm.trans hg'
    obtain ⟨hfuture, hnow, hwithin⟩ := htally g hbefore
    have hceiling : g'.ceiling = g.ceiling := by rw [GroupAccount.ceiling, GroupAccount.ceiling, hcharter.shareRules]
    have hcounter : if msg.closes then (StoreEvent.message ctx sender msg).sharesFor a x = 0 ∧ g'.sharesNow x = 0
        else g'.sharesNow x = g.sharesNow x + (StoreEvent.message ctx sender msg).sharesFor a x ∧
          ((StoreEvent.message ctx sender msg).sharesFor a x = 0 ∨ g'.sharesNow x ≤ g.ceiling) := by
      rcases hmove with ⟨hm, hm'⟩ | ⟨m, m', hm, hm', hx, hmove⟩
      · have hzero : (StoreEvent.message ctx sender msg).sharesFor a x = 0 :=
          StoreEvent.sharesFor_of_not_member hsender hm
        rw [GroupAccount.sharesNow_none hm, GroupAccount.sharesNow_none hm', hzero]
        split
        · exact ⟨rfl, rfl⟩
        · exact ⟨rfl, .inl rfl⟩
      · rw [GroupAccount.sharesNow_some hm, GroupAccount.sharesNow_some hm']
        refine hmove.counter hx (hs a g hbefore) hedits ?_
        rintro b rfl
        rw [← GroupAccount.sharesNow_some hm]
        exact hev (Option.some.inj hedits) g hbefore
    rw [countShares_some hbefore]
    cases hcloses : msg.closes with
    | false =>
      rw [hcloses, if_neg Bool.false_ne_true] at hcounter hcycle
      obtain ⟨hadds, hroom⟩ := hcounter
      refine ⟨fun c hc => ?_, ?_, fun c => ?_⟩
      · rw [hcycle] at hc
        rw [Function.update_of_ne hc.ne']
        exact hfuture c hc
      · rw [hcycle, Function.update_self, hnow, hadds]
      · rw [hceiling]
        by_cases hc : c = g.cycle
        · subst hc
          rw [Function.update_self]
          rcases hroom with hzero | hle
          · rw [hzero]
            exact hwithin _
          · rw [hnow, ← hadds]
            exact hle
        · rw [Function.update_of_ne hc]
          exact hwithin c
    | true =>
      rw [hcloses, if_pos rfl] at hcounter hcycle
      obtain ⟨hzero, hfresh⟩ := hcounter
      rw [hzero, Nat.add_zero, Function.update_eq_self]
      have hle : g.cycle ≤ g'.cycle := hcycle ▸ Fin.le_saturatingAdd _ _
      refine ⟨fun c hc => hfuture c (lt_of_le_of_lt hle hc), ?_, fun c => hceiling ▸ hwithin c⟩
      rw [hfresh]
      rcases hle.lt_or_eq with hlt | heq
      · exact hfuture _ hlt
      · -- the cycle closes into itself
        have hlast : g.cycle = Fin.last _ := by
          have hone : (1 : U64).val = 1 := rfl
          have hval := congrArg Fin.val (heq.trans hcycle)
          rw [Fin.saturatingAdd_val, hone] at hval
          refine Fin.ext ?_
          rw [Fin.val_last]
          omega
        rw [← heq]
        cases msg with
        | closeCycle b => exact hnow.trans (hev (Option.some.inj hedits) g hbefore hlast)
        | groupPayout b =>
          have hnone : g.ceiling = 0 := by rw [GroupAccount.ceiling, hrotates ⟨b, rfl⟩, Option.elim]
          exact Nat.le_zero.1 (hnone ▸ hwithin g.cycle)
        | _ => cases hcloses

end

/-- In every run in which the counter of `x` starts again with the cycle only, `x` stays within the ceiling. -/
theorem share_ceiling_kept [Crypto] [StateRoot] (genesis : Genesis) (limits : GenesisLimits) (block : Block)
    (start : Store) (hgenesis : Runs (genesis.apply limits) .empty block start) (a x : Address) (es : List StoreEvent)
    (s : Store) (bought : U64 → ℕ)
    (hrun : Trace (fun p es p' => Counts a x p es p' ∧ ∀ ev ∈ es, p.1.KeepsCounter a x ev) (start, fun _ => 0) es
      (s, bought)) : s.WithinCeiling a bought := by
  have hnone := Genesis.apply_group hgenesis a
  obtain ⟨-, htally⟩ := hrun.preserves
    (I := fun p : Store × (U64 → ℕ) => p.1.Chartered ∧ ∀ g, p.1.group a = some g → g.Tallied x p.2) (by
      rintro ⟨t, book⟩ as ⟨t', book'⟩ ⟨hs, htally⟩ ⟨⟨hstep, hbook⟩, hkeeps⟩
      obtain ⟨ev, rfl, hsaver⟩ := hstep.saverStep hs a x
      refine ⟨hstep.chartered hs, ?_⟩
      rw [hbook]
      exact hsaver.tallied hs htally (hkeeps ev (.head _)))
    ⟨Genesis.apply_chartered hgenesis, fun g hg => by cases hnone.symm.trans hg⟩
  intro g rules hg hrules c
  have hle := (htally g hg).within c
  rwa [GroupAccount.ceiling, hrules] at hle

/-! ## Within a cycle -/

def StoreEvent.withinCycle : StoreEvent → Bool
  | .message _ _ m => !m.closes && !Message.founds m
  | _ => true

section

variable {a x : Address} {s : Store} {ev : StoreEvent}

theorem Store.keepsCounter_of_took (hshareOut : ev.took.map Prod.snd ≠ some (.shareOut a))
    (hclose : ev.took.map Prod.snd ≠ some (.closeCycle a)) : s.KeepsCounter a x ev := by
  unfold Store.KeepsCounter
  split
  · rintro rfl
    exact (hshareOut rfl).elim
  · rintro rfl
    exact (hclose rfl).elim
  · trivial

variable [Crypto] {p p' : Store × (U64 → ℕ)} {es : List StoreEvent} {g' : GroupAccount}

theorem executeBlocks_counts [StateRoot] (a x : Address) (e : Executor) (blocks : List (BlockContext × List Transaction))
    (start : Store) : ∃ bought, Trace (Counts a x) (start, fun _ => 0) (runEvents e blocks start)
      (executeBlocks e blocks start, bought) :=
  (executeBlocks_trace e blocks start).exists_beside _

theorem Counts.chartered {t : Store} {book book' : U64 → ℕ} (h : Trace (Counts a x) (s, book) es (t, book'))
    (hs : s.Chartered) : t.Chartered :=
  h.of_beside.preserves (fun _ _ _ hs hstep => hstep.chartered hs) hs

theorem Counts.single (h : Counts a x p es p') : ∃ ev, es = [ev] := h.1.single

theorem Counts.within_cycle (h : Trace (Counts a x) p es p') (hs : p.1.Chartered)
    (hes : ∀ ev ∈ es, ev.withinCycle = true) (hg' : p'.1.group a = some g') :
    ∃ g, p.1.group a = some g ∧ g.cycle = g'.cycle ∧
      p'.2 g'.cycle = p.2 g'.cycle + (es.map (StoreEvent.sharesFor a x)).sum := by
  induction h with
  | nil p => exact ⟨g', hg', rfl, rfl⟩
  | @cons p q r as bs hm _ ih =>
    obtain ⟨hstep, hbook⟩ := hm
    obtain ⟨ev, rfl, hsaver⟩ := hstep.saverStep hs a x
    obtain ⟨g₁, hg₁, hcycle₁, hsum⟩ :=
      ih (hstep.chartered hs) (fun ev hev => hes ev (List.mem_append_right _ hev)) hg'
    have hopen := hes ev (.head _)
    have hfirst : ∃ g, p.1.group a = some g ∧ g.cycle = g₁.cycle := by
      cases hsaver with
      | elsewhere _ hgroup => exact ⟨g₁, hgroup ▸ hg₁, rfl⟩
      | gone hgroup => cases hgroup.symm.trans hg₁
      | founded hmsg _ _ _ => simp [StoreEvent.withinCycle, hmsg] at hopen
      | @moved _ _ msg g _ hbefore hafter _ _ _ hcycle _ _ =>
        cases hafter.symm.trans hg₁
        refine ⟨g, hbefore, ?_⟩
        have hclosed : msg.closes = false := by
          simp only [StoreEvent.withinCycle, Bool.and_eq_true, Bool.not_eq_true'] at hopen
          exact hopen.1
        rw [hcycle, hclosed]
        rfl
    obtain ⟨g, hg, hcycle⟩ := hfirst
    refine ⟨g, hg, hcycle.trans hcycle₁, ?_⟩
    have hentry : q.2 g'.cycle = p.2 g'.cycle + ev.sharesFor a x := by
      rw [hbook, List.foldl_cons, List.foldl_nil, countShares_some hg, ← hcycle₁, ← hcycle, Function.update_self]
    rw [hsum, hentry, List.map_append, List.sum_append, List.map_singleton, List.sum_singleton, Nat.add_assoc]

end

namespace Sample

/-- Account 1 founds a group that accumulates and buys a share, and the cycle closes. -/
def saving : List (BlockContext × List Transaction) :=
  [(⟨1, 5⟩, [sent 1 0 [
    .createGroup "chama" [⟨addressOf 1, .treasurer⟩, ⟨addressOf 2, .member⟩] ⟨1000, .native, 1⟩
      (.accumulate lendingRules) ⟨1, 2⟩,
    .buyShares lendingGroup 1]]), (⟨2, 6⟩, [closing 1])]

/-- In the second cycle account 1 buys ten shares, shares out and buys ten again. -/
def doubling : List (BlockContext × List Transaction) :=
  [(⟨3, 7⟩, [sent 1 2 [.buyShares lendingGroup 10, .shareOut lendingGroup, .buyShares lendingGroup 10]])]

theorem share_ceiling_doubled :
    (∃ b, Runs ((genesisOf lenders).apply .devnet) .empty b (opened lenders)) ∧
    ∃ bought, Trace (Counts lendingGroup (addressOf 1)) (opened lenders, fun _ => 0)
        (runEvents ⟨chain⟩ (saving ++ doubling) (opened lenders))
        (executeBlocks ⟨chain⟩ (saving ++ doubling) (opened lenders), bought) ∧
      20 ≤ bought 1 ∧
      ¬ (executeBlocks ⟨chain⟩ (saving ++ doubling) (opened lenders)).WithinCeiling lendingGroup bought := by
  obtain ⟨b, hgenesis⟩ := lenders_genesis
  obtain ⟨hgroup, hes, hsum⟩ :
      ((executeBlocks ⟨chain⟩ (saving ++ doubling) (opened lenders)).group lendingGroup).any (fun g =>
        decide (g.cycle = 1) && decide (g.shareRules = some lendingRules)) = true ∧
      (∀ ev ∈ runEvents ⟨chain⟩ doubling (executeBlocks ⟨chain⟩ saving (opened lenders)), ev.withinCycle = true) ∧
      ((runEvents ⟨chain⟩ doubling (executeBlocks ⟨chain⟩ saving (opened lenders))).map
        (StoreEvent.sharesFor lendingGroup (addressOf 1))).sum = 20 := by
    decide +kernel
  obtain ⟨bought, hrun⟩ := executeBlocks_counts lendingGroup (addressOf 1) ⟨chain⟩ (saving ++ doubling) (opened lenders)
  obtain ⟨g, hg, hfacts⟩ := (Option.any_eq_true _ _).1 hgroup
  rw [Bool.and_eq_true, decide_eq_true_eq, decide_eq_true_eq] at hfacts
  have hsplit := hrun
  rw [runEvents_append] at hsplit
  obtain ⟨⟨t, book⟩, hfirst, hlast⟩ := hsplit.of_append Counts.single
  have hchartered : t.Chartered := Counts.chartered hfirst (Genesis.apply_chartered hgenesis)
  have hbought : bought 1 = book 1 + 20 := by
    generalize executeBlocks ⟨chain⟩ (saving ++ doubling) (opened lenders) = s at hg hlast
    obtain ⟨-, -, -, hbought⟩ := Counts.within_cycle hlast hchartered hes hg
    rw [hfacts.1, hsum] at hbought
    exact hbought
  have hle : 20 ≤ bought 1 := by omega
  refine ⟨⟨b, hgenesis⟩, bought, hrun, hle, fun hwithin => ?_⟩
  have hten : bought 1 ≤ 10 := hwithin g lendingRules hg hfacts.2 1
  omega

/-- Without a share-out the eight shares of the first cycle are within the ceiling. -/
theorem share_ceiling_kept_buying : ∃ bought,
    Trace (Counts lendingGroup (addressOf 1)) (opened lenders, fun _ => 0)
      (runEvents ⟨chain⟩ [(⟨1, 5⟩, [borrowing])] (opened lenders))
      (executeBlocks ⟨chain⟩ [(⟨1, 5⟩, [borrowing])] (opened lenders), bought) ∧
    (executeBlocks ⟨chain⟩ [(⟨1, 5⟩, [borrowing])] (opened lenders)).WithinCeiling lendingGroup bought := by
  obtain ⟨b, hgenesis⟩ := lenders_genesis
  have hquiet : ∀ ev ∈ runEvents ⟨chain⟩ [(⟨1, 5⟩, [borrowing])] (opened lenders),
      ev.took.map Prod.snd ≠ some (.shareOut lendingGroup) ∧
        ev.took.map Prod.snd ≠ some (.closeCycle lendingGroup) := by
    decide +kernel
  obtain ⟨bought, hrun⟩ := executeBlocks_counts lendingGroup (addressOf 1) ⟨chain⟩ [(⟨1, 5⟩, [borrowing])] (opened lenders)
  refine ⟨bought, hrun, share_ceiling_kept _ _ b _ hgenesis _ (addressOf 1) _ _ _ ((hrun.restrict hquiet).mono ?_)⟩
  rintro p as p' ⟨hstep, hall⟩
  exact ⟨hstep, fun ev hev => Store.keepsCounter_of_took (hall ev hev).1 (hall ev hev).2⟩

end Sample

end AfroLink
