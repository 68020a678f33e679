import AfroLink.Executor.Lemmas.Governance

/-!
# The record of a proposal

Every proposal in the store was opened by a proposer and has been there ever since.
-/

namespace AfroLink

variable [Crypto]

def StoreEvent.VotesFor (id : U64) (v : Address) (ev : StoreEvent) : Prop := ∃ ctx, ev = .message ctx v (.voteGovAction id)

/-- A step that finds the proposal in the store and leaves it there. -/
def Stays (id : U64) (s : Store) (es : List StoreEvent) (s' : Store) : Prop :=
  Emits s es s' ∧ (s.proposalAt id).isSome ∧ (s'.proposalAt id).isSome

/-- Among the events since the proposal was opened is the vote that put it on schedule: within the voting period, with
the weight of the votes under the council of that moment, for the end of the timelock then in force. -/
def Passed (id : U64) (opening : Store) (since : List StoreEvent) (p : GovProposal) (due : Height) : Prop :=
  ∃ before after t ctx voter c, since = before ++ .message ctx voter (.voteGovAction id) :: after ∧
    Trace (Stays id) opening before t ∧ t.seatedCouncil = some c ∧
    c.reached (Governance.tally c p.votes) = true ∧ ctx.height ≤ p.votingEnds ∧
    due = Fin.saturatingAdd ctx.height t.chainParams.timelockBlocks ∧
    ∀ v ∈ p.votes, ∃ ev ∈ before ++ [.message ctx voter (.voteGovAction id)], ev.VotesFor id v

def Docketed (start : Store) (hist : List StoreEvent) (s : Store) (id : U64) (p : GovProposal) : Prop :=
  ∃ before since ctx t opening, hist = before ++ .message ctx p.proposer (.proposeGovAction p.action) :: since ∧
    Trace Emits start before t ∧ Emits t [.message ctx p.proposer (.proposeGovAction p.action)] opening ∧
    p.opened = ctx.height ∧ p.votingEnds = Fin.saturatingAdd ctx.height t.chainParams.votingPeriodBlocks ∧
    Trace (Stays id) opening since s ∧ p.votes.Nodup ∧ (∀ v ∈ p.votes, ∃ ev ∈ since, ev.VotesFor id v) ∧
    ∀ due, p.scheduledFor = some due → Passed id opening since p due

variable {start s s' opening : Store} {hist since es : List StoreEvent} {id : U64} {p p' : GovProposal} {ev : StoreEvent}
  {ctx : BlockContext} {sender : Address} {due : Height}

theorem Passed.later (h : Passed id opening since p due) (es : List StoreEvent) : Passed id opening (since ++ es) p due := by
  obtain ⟨before, after, t, ctx, voter, c, rfl, hrest⟩ := h
  exact ⟨before, after ++ es, t, ctx, voter, c, by simp, hrest⟩

omit [Crypto] in
theorem GovProposal.recordVote_eq_some (h : p.recordVote sender = some p') :
    sender ∉ p.votes ∧ p' = { p with votes := p.votes.orderedInsert (· ≤ ·) sender } := by
  unfold recordVote at h
  split_ifs at h with hvoted
  cases h
  exact ⟨hvoted, rfl⟩

theorem Docketed.kept (h : Docketed start hist s id p) (hstays : Stays id s es s') : Docketed start (hist ++ es) s' id p := by
  obtain ⟨before, since, ctx, t, opening, rfl, hbefore, hopen, hopened, hends, hsince, hnodup, hvotes, hpassed⟩ := h
  refine ⟨before, since ++ es, ctx, t, opening, by simp, hbefore, hopen, hopened, hends, hsince.trans (.single hstays),
    hnodup, fun v hv => ?_, fun due hdue => (hpassed due hdue).later es⟩
  obtain ⟨ev, hev, hvote⟩ := hvotes v hv
  exact ⟨ev, List.mem_append_left _ hev, hvote⟩

theorem Docketed.voted (h : Docketed start hist s id p) (hvote : p.recordVote sender = some p') (schedule : Option Height)
    (hstays : Stays id s [.message ctx sender (.voteGovAction id)] s')
    (hpassed : ∀ due, schedule = some due → ∃ c, s.seatedCouncil = some c ∧
      c.reached (Governance.tally c p'.votes) = true ∧ ctx.height ≤ p.votingEnds ∧
      due = Fin.saturatingAdd ctx.height s.chainParams.timelockBlocks) :
    Docketed start (hist ++ [.message ctx sender (.voteGovAction id)]) s' id { p' with scheduledFor := schedule } := by
  obtain ⟨hnew, rfl⟩ := GovProposal.recordVote_eq_some hvote
  obtain ⟨before, since, ctxₒ, t, opening, rfl, hbefore, hopen, hopened, hends, hsince, hnodup, hvotes, -⟩ := h
  have hperm := List.perm_orderedInsert (· ≤ ·) sender p.votes
  have hcast : ∀ v ∈ p.votes.orderedInsert (· ≤ ·) sender,
      ∃ ev ∈ since ++ [.message ctx sender (.voteGovAction id)], ev.VotesFor id v := by
    intro v hv
    rcases List.mem_cons.1 (hperm.mem_iff.1 hv) with rfl | hv
    · exact ⟨_, List.mem_append_right _ (.head _), ctx, rfl⟩
    · obtain ⟨ev, hev, hvote⟩ := hvotes v hv
      exact ⟨ev, List.mem_append_left _ hev, hvote⟩
  refine ⟨before, since ++ [.message ctx sender (.voteGovAction id)], ctxₒ, t, opening, by simp, hbefore, hopen, hopened,
    hends, hsince.trans (.single hstays), hperm.nodup_iff.2 (List.nodup_cons.2 ⟨hnew, hnodup⟩), hcast, fun due hdue => ?_⟩
  obtain ⟨c, hc, hreached, hintime, hdue⟩ := hpassed due hdue
  exact ⟨since, [], s, ctx, sender, c, rfl, hsince, hc, hreached, hintime, hdue, hcast⟩

theorem Emits.docket (h : Emits s es s') :
    (∃ ctx sender m, es = [.message ctx sender m] ∧ ∀ id, DocketStep ctx sender s id m (s'.proposalAt id)) ∨
      ∀ id, s'.proposalAt id = s.proposalAt id := by
  rcases h.quiet_or_message with hes | ⟨ctx, sender, m, rfl, hm⟩
  · exact .inr fun id => Store.valueAt_congr (h.frame hes nofun nofun)
  · exact .inl ⟨_, _, _, rfl, Exec.applyMessage_docket hm⟩

theorem Emits.executed {ctx : BlockContext} {sender : Address}
    (h : Emits s [.message ctx sender (.executeGovAction id)] s') : s'.proposalAt id = none := by
  cases h with
  | message hm =>
    have hstep := Exec.applyMessage_docket hm id
    generalize s'.proposalAt id = after at hstep
    cases hstep with
    | kept hne => exact (hne rfl).elim
    | gone => rfl

theorem Stays.not_executed (h : Stays id s es s') {ctx : BlockContext} {sender : Address} :
    .message ctx sender (.executeGovAction id) ∉ es := by
  intro hmem
  obtain ⟨ev, rfl⟩ := h.1.single
  cases List.mem_singleton.1 hmem
  have hsome := h.2.2
  rw [h.1.executed] at hsome
  cases hsome

theorem Docketed.step (hdocket : ∀ id p, s.proposalAt id = some p → Docketed start hist s id p)
    (htrace : Trace Emits start hist s) (h : Emits s es s') :
    ∀ id p, s'.proposalAt id = some p → Docketed start (hist ++ es) s' id p := by
  intro id p hp
  have hsome' : (s'.proposalAt id).isSome := Option.isSome_of_mem hp
  have hkept : s'.proposalAt id = s.proposalAt id → Docketed start (hist ++ es) s' id p := by
    intro hsame
    have hbefore : s.proposalAt id = some p := hsame.symm.trans hp
    exact (hdocket id p hbefore).kept ⟨h, Option.isSome_of_mem hbefore, hsome'⟩
  rcases h.docket with ⟨ctx, sender, m, rfl, hstep⟩ | hsame
  · have hid := hstep id
    generalize hafter : s'.proposalAt id = after at hid
    cases hid with
    | kept _ => exact hkept hafter
    | gone => cases hafter.symm.trans hp
    | opened =>
      cases hafter.symm.trans hp
      exact ⟨hist, [], ctx, s, s', rfl, htrace, h, rfl, rfl, .nil _, .nil, fun v hv => (List.not_mem_nil hv).elim, nofun⟩
    | @voted q q' hq hopen hvote =>
      cases hafter.symm.trans hp
      have hschedule : p.scheduledFor = none := by
        rw [(GovProposal.recordVote_eq_some hvote).2]
        exact hopen
      refine (hdocket id q hq).voted hvote p.scheduledFor ⟨h, Option.isSome_of_mem hq, hsome'⟩ ?_
      rw [hschedule]
      exact nofun
    | @passed c q q' hc hq hopen hends hvote hreached =>
      cases hafter.symm.trans hp
      refine (hdocket id q hq).voted hvote _ ⟨h, Option.isSome_of_mem hq, hsome'⟩ ?_
      rintro due ⟨⟩
      exact ⟨c, hc, hreached, hends, rfl⟩
  · exact hkept (hsame id)

theorem Trace.docketed (h : Trace Emits start es s) (hstart : ∀ id, start.proposalAt id = none) (hp : s.proposalAt id = some p) :
    Docketed start es s id p := by
  refine (h.invariant_nil (I := fun hist s => Trace Emits start hist s ∧
    ∀ id p, s.proposalAt id = some p → Docketed start hist s id p) ?_ ⟨.nil start, ?_⟩).2 id p hp
  · rintro hist s as t ⟨htrace, hdocket⟩ hstep
    exact ⟨htrace.trans (.single hstep), Docketed.step hdocket htrace hstep⟩
  · intro id p hp
    cases (hstart id).symm.trans hp

end AfroLink
