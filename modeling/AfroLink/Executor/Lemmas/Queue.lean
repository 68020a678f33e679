import AfroLink.Executor.Lemmas.Validators

/-!
# Unbonding queues over a run

Every entry carries the height of the block that queued it.
-/

namespace AfroLink

/-! ## Events and blocks -/

def StoreEvent.context : StoreEvent → Option BlockContext
  | message ctx _ _ => some ctx
  | fee .. | nonce _ | pointer .. => none

section

variable [Crypto]

namespace Exec

variable {e : Executor} {ctx c : BlockContext} {t : Transaction} {s : Store} {ev : StoreEvent}

theorem txEvents_context (hev : ev ∈ txEvents e ctx t s) (hc : ev.context = some c) : c = ctx := by
  rcases txEvents_cases hev with ⟨payer, rfl⟩ | ⟨m, -, rfl⟩ | rfl | ⟨a, p, rfl⟩
  · cases hc
  · cases hc
    rfl
  · cases hc
  · cases hc

theorem txsEvents_context {ts : List Transaction} (hev : ev ∈ txsEvents e ctx ts s) (hc : ev.context = some c) :
    c = ctx := by
  induction ts generalizing s with
  | nil => cases hev
  | cons t rest ih =>
    rcases List.mem_append.1 hev with hev | hev
    · exact txEvents_context hev hc
    · exact ih hev

end Exec

theorem runEvents_context [StateRoot] {e : Executor} {blocks : List (BlockContext × List Transaction)} {s : Store}
    {ev : StoreEvent} {c : BlockContext} (hev : ev ∈ runEvents e blocks s) (hc : ev.context = some c) :
    ∃ block ∈ blocks, block.1 = c := by
  induction blocks generalizing s with
  | nil => cases hev
  | cons block rest ih =>
    rcases List.mem_append.1 hev with hev | hev
    · exact ⟨block, .head _, (Exec.txsEvents_context hev hc).symm⟩
    · obtain ⟨b, hb, heq⟩ := ih hev
      exact ⟨b, .tail _ hb, heq⟩

/-! ## Queues -/

variable {ctx : BlockContext} {sender operator : Address} {s s' : Store} {m : Message} {es : List StoreEvent}

theorem Emits.stake (hs : s.Filed) (h : Emits s es s') :
    (∃ ctx sender m, es = [.message ctx sender m] ∧ StakeStep ctx sender s s' m) ∨
      (s'.bondAt = s.bondAt ∧ s'.queueAt = s.queueAt) := by
  rcases h.quiet_or_message with hes | ⟨ctx, sender, m, rfl, hm⟩
  · obtain ⟨hbonds, hqueues, -⟩ := Store.books_of_frame (h.books hes)
    exact .inr ⟨hbonds, hqueues⟩
  · exact .inl ⟨ctx, sender, m, rfl, Exec.applyMessage_stake hs hm⟩

def Store.Jailed (s : Store) (operator : Address) : Prop := ∃ b, s.bondAt operator = some b ∧ b.jailed = true

/-- The ways in which the queue of one operator changes. -/
inductive QueueStep (ctx : BlockContext) (sender operator : Address) (s s' : Store) : Message → Prop where
  | queue {x : Amount} (h : sender = operator) (hqueue : s'.queueAt operator = s.queueAt operator ++
      [⟨x, ctx.height, Fin.saturatingAdd ctx.time s.chainParams.staking.unbondingMs⟩]) :
      QueueStep ctx sender operator s s' (.unbond x)
  | release (h : sender = operator)
      (hqueue : s'.queueAt operator = (s.queueAt operator).filter fun u => !u.matured ctx.time) :
      QueueStep ctx sender operator s s' .withdrawUnbonded
  | slash {evidence : Equivocation} (h : evidence.validator = operator) (hjailed : s'.Jailed operator)
      (hqueue : s'.queueAt operator = (s.queueAt operator).map (Staking.slashEntry evidence.first.vote.height)) :
      QueueStep ctx sender operator s s' (.reportEquivocation evidence)
  | other {m : Message} (hqueue : s'.queueAt operator = s.queueAt operator) : QueueStep ctx sender operator s s' m

theorem StakeStep.queue (h : StakeStep ctx sender s s' m) (operator : Address) : QueueStep ctx sender operator s s' m := by
  cases h with
  | bond _ _ _ hqueues _ _ _ => exact .other (congrFun hqueues operator)
  | addStake _ _ _ hqueues _ _ => exact .other (congrFun hqueues operator)
  | unbond _ _ _ _ hqueues _ _ =>
    by_cases ha : operator = sender
    · subst ha
      exact .queue rfl (by rw [hqueues, Function.update_self])
    · exact .other (by rw [hqueues, Function.update_of_ne ha])
  | withdraw _ _ hqueues _ _ =>
    by_cases ha : operator = sender
    · subst ha
      exact .release rfl (by rw [hqueues, Function.update_self])
    · exact .other (by rw [hqueues, Function.update_of_ne ha])
  | @slash evidence _ _ _ _ _ _ _ _ _ _ hbonds hqueues _ _ _ =>
    by_cases ha : operator = evidence.validator
    · subst ha
      exact .slash rfl ⟨_, by rw [hbonds, Function.update_self], rfl⟩ (by rw [hqueues, Function.update_self])
    · exact .other (by rw [hqueues, Function.update_of_ne ha])
  | other _ hframe => exact .other (congrFun (Store.books_of_frame hframe).2.1 operator)

theorem StakeStep.jailed (h : StakeStep ctx sender s s' m) (hs : s.Jailed operator) : s'.Jailed operator := by
  obtain ⟨b, hb, hjailed⟩ := hs
  have hupdate : ∀ {a : Address} {c c' : Bond}, s.bondAt a = some c → s'.bondAt = Function.update s.bondAt a (some c') →
      (c.jailed = true → c'.jailed = true) → s'.Jailed operator := by
    intro a c c' hc hbonds hkeep
    by_cases ha : operator = a
    · subst ha
      cases hb.symm.trans hc
      exact ⟨c', by rw [hbonds, Function.update_self], hkeep hjailed⟩
    · exact ⟨b, by rw [hbonds, Function.update_of_ne ha, hb], hjailed⟩
  cases h with
  | bond hnone _ hbonds _ _ _ _ =>
    have ha : operator ≠ sender := by
      rintro rfl
      cases hnone.symm.trans hb
    exact ⟨b, by rw [hbonds, Function.update_of_ne ha, hb], hjailed⟩
  | addStake hc _ hbonds _ _ _ => exact hupdate hc hbonds id
  | unbond hc _ _ hbonds _ _ _ => exact hupdate hc hbonds id
  | withdraw _ hbonds _ _ _ => exact ⟨b, by rw [hbonds, hb], hjailed⟩
  | slash _ _ hc _ _ _ hbonds _ _ _ _ => exact hupdate hc hbonds fun _ => rfl
  | other _ hframe => exact ⟨b, by rw [(Store.books_of_frame hframe).1, hb], hjailed⟩

omit [Crypto] in
theorem Staking.slashEntry_startedAt (h : Height) (u : Unbonding) : (slashEntry h u).startedAt = u.startedAt := by
  unfold slashEntry
  split <;> rfl

omit [Crypto] in
theorem Staking.slashEntry_completesAt (h : Height) (u : Unbonding) : (slashEntry h u).completesAt = u.completesAt := by
  unfold slashEntry
  split <;> rfl

/-- What was queued before a height, as long as nothing is slashed. -/
def queuedBefore (h : Height) (queue : List Unbonding) : List Unbonding := queue.filter fun u => u.startedAt < h

omit [Crypto] in
theorem QueueStep.queuedBefore {h : Height} (hstep : QueueStep ctx sender operator s s' m) (hheight : h ≤ ctx.height) :
    s'.Jailed operator ∨ (queuedBefore h (s'.queueAt operator)).Sublist (queuedBefore h (s.queueAt operator)) := by
  cases hstep with
  | queue _ hqueue =>
    refine .inr ?_
    rw [hqueue, AfroLink.queuedBefore, List.filter_append]
    simp [AfroLink.queuedBefore, hheight]
  | release _ hqueue =>
    refine .inr ?_
    rw [hqueue]
    exact List.Sublist.filter _ List.filter_sublist
  | slash _ hjailed _ => exact .inl hjailed
  | other hqueue =>
    rw [hqueue]
    exact .inr (List.Sublist.refl _)

omit [Crypto] in
theorem QueueStep.startedAt {h : Height} (hstep : QueueStep ctx sender operator s s' m) (hheight : ctx.height < h)
    (hs : ∀ u ∈ s.queueAt operator, u.startedAt < h) : ∀ u ∈ s'.queueAt operator, u.startedAt < h := by
  cases hstep with
  | queue _ hqueue =>
    rw [hqueue]
    intro u hu
    rcases List.mem_append.1 hu with hu | hu
    · exact hs u hu
    · rw [List.mem_singleton.1 hu]
      exact hheight
  | release _ hqueue =>
    rw [hqueue]
    exact fun u hu => hs u (List.mem_of_mem_filter hu)
  | slash _ _ hqueue =>
    rw [hqueue]
    intro u hu
    obtain ⟨w, hw, rfl⟩ := List.mem_map.1 hu
    rw [Staking.slashEntry_startedAt]
    exact hs w hw
  | other hqueue =>
    rw [hqueue]
    exact hs

/-! ## Runs -/

section

variable [StateRoot] {e : Executor} {start : Store} {g : Genesis} {limits : GenesisLimits} {b : Block}
  {blocks : List (BlockContext × List Transaction)} {h : Height}

def OccursIn (blocks : List (BlockContext × List Transaction)) (e : Executor) (start s : Store) : Prop :=
  ∃ es, es <+: runEvents e blocks start ∧ Trace Emits start es s

theorem OccursIn.refl : OccursIn blocks e s s := ⟨[], List.nil_prefix, .nil s⟩

theorem OccursIn.occurs (hs : OccursIn blocks e start s) : Occurs e start s := by
  obtain ⟨es, hes, htrace⟩ := hs
  exact ⟨blocks, es, hes, htrace⟩

theorem OccursIn.trace (hs : OccursIn blocks e start s) : ∃ es, Trace (fun s es s' => Emits s es s' ∧
    ∀ ev ∈ es, ∀ c, ev.context = some c → ∃ block ∈ blocks, block.1 = c) start es s := by
  obtain ⟨es, hes, htrace⟩ := hs
  exact ⟨es, htrace.restrict fun ev hev c hc => runEvents_context (hes.subset hev) hc⟩

theorem OccursIn.after {later : List (BlockContext × List Transaction)}
    (hs : OccursIn later e (executeBlocks e blocks start) s) : OccursIn (blocks ++ later) e start s := by
  obtain ⟨es, hes, htrace⟩ := hs
  refine ⟨runEvents e blocks start ++ es, ?_, (executeBlocks_trace e blocks start).trans htrace⟩
  rw [runEvents_append]
  exact (List.prefix_append_right_inj _).2 hes

theorem executeBlocks_occursIn : OccursIn blocks e start (executeBlocks e blocks start) :=
  ⟨_, List.prefix_rfl, executeBlocks_trace e blocks start⟩

theorem Genesis.queue_startedAt (hgenesis : Runs (g.apply limits) .empty b start) (hs : OccursIn blocks e start s)
    (hblocks : ∀ block ∈ blocks, block.1.height < h) : ∀ u ∈ s.queueAt operator, u.startedAt < h := by
  obtain ⟨es, htrace⟩ := hs.trace
  refine (htrace.preserves (I := fun s => s.Filed ∧ ∀ u ∈ s.queueAt operator, u.startedAt < h) ?_ ?_).2
  · rintro s as t ⟨hfiled, hs⟩ ⟨hemits, hcontext⟩
    refine ⟨hemits.filed hfiled, ?_⟩
    rcases hemits.stake hfiled with ⟨ctx, sender, m, rfl, hstep⟩ | ⟨-, hqueues⟩
    · obtain ⟨block, hblock, rfl⟩ := hcontext _ (.head _) ctx rfl
      exact (hstep.queue operator).startedAt (hblocks block hblock) hs
    · rwa [hqueues]
  · refine ⟨(Genesis.apply_regular hgenesis).filed, ?_⟩
    rw [(Genesis.apply_books hgenesis).2 operator]
    exact nofun

theorem OccursIn.queuedBefore (hfiled : start.Filed) (hs : OccursIn blocks e start s)
    (hblocks : ∀ block ∈ blocks, h ≤ block.1.height) :
    s.Jailed operator ∨ (queuedBefore h (s.queueAt operator)).Sublist (queuedBefore h (start.queueAt operator)) := by
  obtain ⟨es, htrace⟩ := hs.trace
  refine (htrace.preserves (I := fun s => s.Filed ∧ (s.Jailed operator ∨
    (AfroLink.queuedBefore h (s.queueAt operator)).Sublist (AfroLink.queuedBefore h (start.queueAt operator)))) ?_ ?_).2
  · rintro s as t ⟨hfiled, hs⟩ ⟨hemits, hcontext⟩
    refine ⟨hemits.filed hfiled, ?_⟩
    rcases hemits.stake hfiled with ⟨ctx, sender, m, rfl, hstep⟩ | ⟨hbonds, hqueues⟩
    · obtain ⟨block, hblock, rfl⟩ := hcontext _ (.head _) ctx rfl
      rcases hs with hjailed | hsub
      · exact .inl (hstep.jailed hjailed)
      · exact ((hstep.queue operator).queuedBefore (hblocks block hblock)).imp_right fun hnext => hnext.trans hsub
    · unfold Store.Jailed
      rw [hbonds, hqueues]
      exact hs
  · exact ⟨hfiled, .inr (List.Sublist.refl _)⟩

end

end

end AfroLink
