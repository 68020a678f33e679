import AfroLink.Executor.Lemmas.Proposals
import AfroLink.Executor.Theorems.Escrow

/-!
# The proposal queue over any calls

Whatever is proposed, voted on and carried out, in any order and with any failed calls between, the queue and the
records agree.
-/

namespace AfroLink

/-- A call of the governance module that succeeds, or anything that leaves the docket as it is: a call that failed and
was rolled back, or what the caller does with an action. -/
inductive GovStep : Store → List GovEvent → Store → Prop where
  | propose {s s' : Store} {sender : Address} {action : GovAction} {now : Height} {id : U64}
      (h : Runs (Governance.propose sender action now) s id s') : GovStep s [.proposed id] s'
  | vote {s s' : Store} {sender : Address} {now : Height} {id : U64} {outcome : GovVoteOutcome}
      (h : Runs (Governance.vote sender id now) s outcome s') : GovStep s [.voted id outcome] s'
  | execute {s s' : Store} {now : Height} {id : U64} {action : GovAction}
      (h : Runs (Governance.execute id now) s action s') : GovStep s [.executed id] s'
  | elsewhere {s s' : Store} (h : s'.docket = s.docket) : GovStep s [.elsewhere] s'

def Store.NoProposals (s : Store) : Prop := s.docket = ⟨{}, fun _ => none⟩

/-- After the calls `hist` the queue is as it should be, no identifier was given twice, and nothing that was withdrawn
or carried out is there. -/
structure Docket.InOrder (hist : List GovEvent) (D : Docket) : Prop extends D.Consistent where
  assigned : (hist.filterMap GovEvent.assigns).Nodup
  closed : ∀ id ∈ hist.flatMap GovEvent.closes, id ∉ D.queue.open_ ∧ D.record id = none

section

variable {start s s' t : Store} {es hist calls : List GovEvent} {id : U64}

theorem GovStep.move (h : GovStep s es s') : s.docket.Move es s'.docket := by
  cases h with
  | propose h => exact Governance.docket_propose h
  | vote h => exact Governance.docket_vote h
  | execute h => exact Governance.docket_execute h
  | elsewhere h =>
    rw [h]
    exact .elsewhere

theorem GovStep.single (h : GovStep s es s') : ∃ ev, es = [ev] := by
  cases h <;> exact ⟨_, rfl⟩

theorem Docket.Inv.inOrder {D : Docket} (h : D.Inv hist) : D.InOrder hist where
  toConsistent := h.toConsistent
  assigned := h.assigned.imp ne_of_lt
  closed id hid := by
    obtain ⟨-, hnone⟩ := h.closed id hid
    exact ⟨fun hopen => by simpa [hnone] using (h.stored id).1 hopen, hnone⟩

theorem GovStep.mem_open (h : GovStep s [.proposed id] s') : id ∈ s'.docket.queue.open_ := by
  have hmove := h.move
  generalize s'.docket = D' at hmove
  cases hmove with
  | propose _ _ _ => simp [Docket.add, Docket.sweep]

theorem Trace.docket_inv (h : Trace GovStep start calls s) (hstart : start.NoProposals)
    (hnext : ∀ id, .proposed id ∈ calls → id < Fin.last _) : s.docket.Inv calls := by
  have htrace := h.restrict (P := fun ev => ∀ id, ev = .proposed id → id < Fin.last _) fun ev hev id heq =>
    hnext id (heq ▸ hev)
  refine htrace.invariant_nil (I := fun hist s => s.docket.Inv hist) ?_ ?_
  · rintro hist s as t hinv ⟨hstep, hlt⟩
    exact hinv.move hstep.move fun id hid => hlt _ hid id rfl
  · rw [hstart]
    exact Docket.Inv.start

end

/-- In every run the queue is in order in every state exactly when no proposal is opened with the last identifier. -/
theorem proposal_queue_in_order_iff (start : Store) (hstart : start.NoProposals) (calls : List GovEvent) (s : Store)
    (hrun : Trace GovStep start calls s) :
    (∀ before after t, calls = before ++ after → Trace GovStep start before t → Trace GovStep t after s →
      t.docket.InOrder before) ↔ ∀ id, .proposed id ∈ calls → id < Fin.last _ := by
  constructor
  · intro horder id hid
    obtain ⟨before, after, rfl⟩ := List.append_of_mem hid
    obtain ⟨t, hbefore, hrest⟩ := hrun.of_append GovStep.single
    obtain ⟨t', hstep, hafter⟩ := hrest.of_cons GovStep.single
    have hopen := (horder (before ++ [.proposed id]) after t' (by simp) (hbefore.trans (.single hstep)) hafter).below id
      hstep.mem_open
    exact hopen.trans_le (Fin.le_last _)
  · intro hnext before after t heq hbefore _
    refine (Trace.docket_inv hbefore hstart fun id hid => hnext id ?_).inOrder
    rw [heq]
    exact List.mem_append_left _ hid

/-! ## The executor's calls -/

section

variable [Crypto] {ctx : BlockContext} {sender : Address} {m : Message} {s s' : Store} {es : List StoreEvent}

end

namespace Tagged

end Tagged

/-! ## The last identifier -/

namespace Sample

def loneCouncil : Council := ⟨[⟨1, 1, .UNSPECIFIED⟩], 10000, by decide⟩

def loneStore : Store := Store.empty.set .council loneCouncil

def asked : GovAction := .setAttestorActive 1 true

/-- No proposal is open, and the next one takes the identifier `n`. -/
structure Idle (s : Store) (n : U64) : Prop where
  council : s .council = some (.value loneCouncil)
  params : s .params = none
  index : ∃ q, s.getDecoded .proposalIndex = .ok q ∧ q.getD {} = ⟨n, []⟩
  records : ∀ id, s (.proposal id) = none

variable {s s' : Store} {n id : U64}

theorem idle_loneStore : Idle loneStore 0 where
  council := rfl
  params := rfl
  index := ⟨none, rfl, rfl⟩
  records _ := rfl

theorem runs_requireCouncil (h : s .council = some (.value loneCouncil)) :
    Runs Governance.requireCouncil s loneCouncil s := by
  refine Runs.bind_iff.2 ⟨some loneCouncil, s, (runs_getDecoded (k := .council)).2 ⟨?_, rfl⟩, rfl⟩
  exact Store.getDecoded_eq_some.2 ⟨h, rfl⟩

theorem runs_params (h : s .params = none) : Runs Governance.params s {} s := by
  refine Runs.bind_iff.2 ⟨none, s, (runs_getDecoded (k := .params)).2 ⟨?_, rfl⟩, rfl⟩
  exact Store.getDecoded_eq_none.2 h

theorem runs_requireProposal {p : GovProposal} (h : s (.proposal id) = some (.value p)) (hp : p.decodeError = none) :
    Runs (Governance.requireProposal id) s p s := by
  refine Runs.bind_iff.2 ⟨some p, s, (runs_getDecoded (k := .proposal id)).2 ⟨?_, rfl⟩, rfl⟩
  exact Store.getDecoded_eq_some.2 ⟨h, hp⟩

theorem runs_queue {q : ProposalQueue} (h : ∃ v, s.getDecoded .proposalIndex = .ok v ∧ v.getD {} = q) :
    Runs Governance.queue s q s := by
  obtain ⟨v, hread, rfl⟩ := h
  exact Runs.bind_iff.2 ⟨v, s, (runs_getDecoded (k := .proposalIndex)).2 ⟨hread, rfl⟩, rfl⟩

def freshAsk (n : U64) : GovProposal := ⟨n, 1, asked, Fin.last _, Fin.last _, [], none⟩

def passedAsk (n : U64) : GovProposal := ⟨n, 1, asked, Fin.last _, Fin.last _, [1], some (Fin.last _)⟩

def proposedIn (s : Store) (n : U64) : Store :=
  ((s.set .proposalIndex ⟨n, []⟩).set .proposalIndex ⟨n.saturatingAdd 1, [n]⟩).set (.proposal n) (freshAsk n)

theorem Idle.propose (h : Idle s n) : Runs (Governance.propose 1 asked (Fin.last _)) s n (proposedIn s n) := by
  have hsweep : Runs (Governance.sweepLapsed (Fin.last _)) s ⟨n, []⟩ (s.set .proposalIndex ⟨n, []⟩) :=
    Runs.bind_iff.2 ⟨_, s, runs_queue h.index, Runs.bind_iff.2 ⟨[], s, rfl, rfl⟩⟩
  have hne : StoreKey.params ≠ .proposalIndex := nofun
  have hparams : Runs Governance.params (s.set .proposalIndex ⟨n, []⟩) {} (s.set .proposalIndex ⟨n, []⟩) :=
    runs_params ((Store.set_of_ne hne).trans h.params)
  refine Runs.bind_iff.2 ⟨_, s, runs_requireCouncil h.council, Runs.guard_iff.2 ⟨by decide, ?_⟩⟩
  refine Runs.bind_iff.2 ⟨(), s, rfl, Runs.bind_iff.2 ⟨(), s, rfl, ?_⟩⟩
  refine Runs.bind_iff.2 ⟨_, _, hsweep, Runs.guard_iff.2 ⟨by simp [MAX_OPEN_PROPOSALS], ?_⟩⟩
  refine Runs.bind_iff.2 ⟨_, _, hparams, ?_⟩
  rfl

theorem proposedIn_frame (s : Store) (n : U64) (k : StoreKey) (hindex : k ≠ .proposalIndex) (hk : k ≠ .proposal n) :
    proposedIn s n k = s k := by
  rw [proposedIn, Store.set_of_ne hk, Store.set_of_ne hindex, Store.set_of_ne hindex]

theorem Idle.vote (h : Idle s n) : Runs (Governance.vote 1 n (Fin.last _)) (proposedIn s n) (.scheduled (Fin.last _))
    ((proposedIn s n).set (.proposal n) (passedAsk n)) := by
  have hcouncil := (proposedIn_frame s n .council nofun nofun).trans h.council
  have hparams := (proposedIn_frame s n .params nofun nofun).trans h.params
  have hrecord : proposedIn s n (.proposal n) = some (.value (freshAsk n)) := Store.set_self
  have hreached : ¬ (!loneCouncil.reached (Governance.tally loneCouncil [1])) = true := by decide
  refine Runs.bind_iff.2 ⟨_, _, runs_requireCouncil hcouncil, Runs.guard_iff.2 ⟨by decide, ?_⟩⟩
  refine Runs.bind_iff.2 ⟨_, _, runs_requireProposal hrecord rfl, Runs.guard_iff.2 ⟨by simp [freshAsk], ?_⟩⟩
  refine Runs.guard_iff.2 ⟨by simp [freshAsk], ?_⟩
  refine Runs.ite_iff.2 (.inr ⟨hreached, ?_⟩)
  refine Runs.bind_iff.2 ⟨_, _, runs_params hparams, ?_⟩
  rfl

def executedIn (s : Store) (n : U64) : Store :=
  (((proposedIn s n).set (.proposal n) (passedAsk n)).delete (.proposal n)).set .proposalIndex ⟨n.saturatingAdd 1, []⟩

theorem Idle.execute : Runs (Governance.execute n (Fin.last _)) ((proposedIn s n).set (.proposal n) (passedAsk n)) asked
    (executedIn s n) := by
  have hindex : ((proposedIn s n).set (.proposal n) (passedAsk n)).delete (.proposal n) .proposalIndex =
      some (.value (⟨n.saturatingAdd 1, [n]⟩ : ProposalQueue)) := by
    have hne : StoreKey.proposalIndex ≠ .proposal n := nofun
    rw [Store.delete_of_ne hne, Store.set_of_ne hne, proposedIn, Store.set_of_ne hne, Store.set_self]
  have hqueue := runs_queue ⟨_, Store.getDecoded_eq_some.2 ⟨hindex, rfl⟩, rfl⟩
  have hremove : Runs (Governance.remove n) ((proposedIn s n).set (.proposal n) (passedAsk n)) () (executedIn s n) := by
    refine Runs.bind_iff.2 ⟨(), _, rfl, Runs.bind_iff.2 ⟨_, _, hqueue, ?_⟩⟩
    rw [runs_setEncoded]
    simp [executedIn]
  refine Runs.bind_iff.2 ⟨_, _, runs_requireProposal Store.set_self rfl, Runs.guard_iff.2 ⟨lt_irrefl _, ?_⟩⟩
  exact Runs.bind_iff.2 ⟨(), _, hremove, rfl⟩

theorem Idle.next (h : Idle s n) : Idle (executedIn s n) (n.saturatingAdd 1) := by
  have hframe : ∀ k : StoreKey, k ≠ .proposalIndex → k ≠ .proposal n → executedIn s n k = s k := by
    intro k hindex hk
    rw [executedIn, Store.set_of_ne hindex, Store.delete_of_ne hk, Store.set_of_ne hk, proposedIn_frame s n k hindex hk]
  refine ⟨(hframe .council nofun nofun).trans h.council, (hframe .params nofun nofun).trans h.params, ?_, fun id => ?_⟩
  · exact ⟨_, Store.getDecoded_eq_some.2 ⟨Store.set_self, rfl⟩, rfl⟩
  · by_cases hid : id = n
    · subst hid
      have hne : StoreKey.proposal id ≠ .proposalIndex := nofun
      rw [executedIn, Store.set_of_ne hne, Store.delete_self]
    · exact (hframe (.proposal id) nofun (by simpa using hid)).trans (h.records id)

theorem exists_idle (n : ℕ) (hn : n < 2 ^ 64) : ∃ calls s, Trace GovStep loneStore calls s ∧ Idle s ⟨n, hn⟩ := by
  induction n with
  | zero => exact ⟨[], loneStore, .nil _, idle_loneStore⟩
  | succ n ih =>
    obtain ⟨calls, s, htrace, hidle⟩ := ih (by omega)
    have hround := ((htrace.trans (.single (.propose hidle.propose))).trans (.single (.vote hidle.vote))).trans
      (.single (.execute Idle.execute))
    refine ⟨_, _, hround, ?_⟩
    have hnext : (⟨n, by omega⟩ : U64).saturatingAdd 1 = ⟨n + 1, hn⟩ := by
      have hone : (1 : U64).val = 1 := rfl
      rw [Fin.ext_iff, Fin.saturatingAdd_val, hone]
      simp only
      omega
    rw [← hnext]
    exact hidle.next

/-- The last identifier is given without the counter moving on: it is in the queue and not below it. -/
theorem proposal_queue_out_of_order :
    loneStore.NoProposals ∧ ∃ calls s, Trace GovStep loneStore calls s ∧ ¬ s.docket.Consistent := by
  refine ⟨rfl, ?_⟩
  obtain ⟨calls, s, htrace, hidle⟩ := exists_idle (2 ^ 64 - 1) (by decide)
  have hstep : GovStep _ _ _ := .propose hidle.propose
  refine ⟨_, _, htrace.trans (.single hstep), fun hconsistent => ?_⟩
  exact (hconsistent.below _ hstep.mem_open).not_ge (Fin.le_last _)

theorem proposal_queue_in_order_once :
    (proposedIn loneStore 0).docket.InOrder [.proposed 0] ∧ (executedIn loneStore 0).docket.InOrder
      [.proposed 0, .voted 0 (.scheduled (Fin.last _)), .executed 0] := by
  have hfirst : Trace GovStep loneStore [.proposed 0] (proposedIn loneStore 0) :=
    .single (.propose idle_loneStore.propose)
  have hrest : Trace GovStep (proposedIn loneStore 0) [.voted 0 (.scheduled (Fin.last _)), .executed 0]
      (executedIn loneStore 0) := 
    (Trace.single (GovStep.vote idle_loneStore.vote)).trans (.single (GovStep.execute Idle.execute))
  have hall := (proposal_queue_in_order_iff loneStore rfl _ _ (hfirst.trans hrest)).2 ?_
  · exact ⟨hall _ _ _ rfl hfirst hrest, hall _ [] _ (by simp) (hfirst.trans hrest) (.nil _)⟩
  · intro id hid
    obtain rfl : id = 0 := by simpa using hid
    decide

end Sample

end AfroLink
