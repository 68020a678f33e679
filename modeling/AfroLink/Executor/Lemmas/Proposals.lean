import AfroLink.Executor.Lemmas.Docket

/-!
# The queue of proposals

The index of open proposals and their records are entries of their own.
-/

namespace AfroLink

theorem lt_saturatingAdd_one {n : U64} (h : n < Fin.last _) : n < n.saturatingAdd 1 := by
  have hval : n.val < 2 ^ 64 - 1 := h
  have hone : (1 : U64).val = 1 := rfl
  rw [Fin.lt_def, Fin.saturatingAdd_val, hone]
  omega

/-! ## Dockets -/

namespace Docket

/-- Index and records agree, and the records are in order. -/
structure Consistent (D : Docket) : Prop where
  ascending : D.queue.open_.Pairwise (· < ·)
  room : D.queue.open_.length ≤ MAX_OPEN_PROPOSALS
  below : ∀ id ∈ D.queue.open_, id < D.queue.nextId
  stored : ∀ id, id ∈ D.queue.open_ ↔ (D.record id).isSome
  votes : ∀ id p, D.record id = some p → p.votes.Pairwise (· < ·)

variable {D : Docket} {now : Height} {id : U64} {p : GovProposal}

namespace Consistent

theorem lt_nextId (h : D.Consistent) (hp : D.record id = some p) : id < D.queue.nextId :=
  h.below id ((h.stored id).2 (by simp [hp]))

theorem record_sweep (h : D.Consistent) (id : U64) : (D.sweep now).record id = (D.record id).filter (·.live now) := by
  simp only [sweep]
  split
  · rfl
  · rename_i hid
    have hnone : D.record id = none := by simpa [h.stored] using hid
    simp [hnone]

theorem sweep (h : D.Consistent) : (D.sweep now).Consistent where
  ascending := h.ascending.filter _
  room := (List.length_filter_le _ _).trans h.room
  below id hid := h.below id (List.mem_of_mem_filter hid)
  stored id := by
    rw [h.record_sweep]
    cases hrec : D.record id with
    | none => simp [Docket.sweep, hrec]
    | some p =>
      have hid : id ∈ D.queue.open_ := (h.stored id).2 (by simp [hrec])
      cases hlive : p.live now <;> simp [Docket.sweep, hrec, hid, hlive]
  votes id p hp := by
    rw [h.record_sweep] at hp
    exact h.votes id p (Option.eq_some_of_filter_eq_some hp)

theorem remove (h : D.Consistent) (id : U64) : (D.remove id).Consistent where
  ascending := h.ascending.filter _
  room := (List.length_filter_le _ _).trans h.room
  below id' hid := h.below id' (List.mem_of_mem_filter hid)
  stored id' := by
    by_cases hid : id' = id
    · simp [Docket.remove, hid]
    · simp [Docket.remove, hid, h.stored]
  votes id' p hp := by
    by_cases hid : id' = id
    · simp [Docket.remove, hid] at hp
    · simp only [Docket.remove, Function.update_of_ne hid] at hp
      exact h.votes id' p hp

theorem put (h : D.Consistent) {p' : GovProposal} (hp : D.record id = some p) (hvotes : p'.votes.Pairwise (· < ·)) :
    (D.put id p').Consistent where
  ascending := h.ascending
  room := h.room
  below := h.below
  stored id' := by
    by_cases hid : id' = id
    · simp [Docket.put, hid, h.stored, hp]
    · simp [Docket.put, hid, h.stored]
  votes id' q hq := by
    by_cases hid : id' = id
    · simp only [Docket.put, hid, Function.update_self, Option.some.injEq] at hq
      exact hq ▸ hvotes
    · simp only [Docket.put, Function.update_of_ne hid] at hq
      exact h.votes id' q hq

theorem add (h : D.Consistent) (hroom : D.queue.open_.length < MAX_OPEN_PROPOSALS) (hvotes : p.votes = [])
    (hnext : D.queue.nextId < Fin.last _) : (D.add p).Consistent := by
  have hlt : D.queue.nextId < D.queue.nextId.saturatingAdd 1 := lt_saturatingAdd_one hnext
  refine ⟨?_, ?_, fun id hid => ?_, fun id => ?_, fun id q hq => ?_⟩
  · simp only [Docket.add, List.pairwise_append]
    exact ⟨h.ascending, by simp, fun a ha b hb => by simpa [List.mem_singleton.1 hb] using h.below a ha⟩
  · simpa [Docket.add] using hroom
  · simp only [Docket.add, List.mem_append, List.mem_singleton] at hid
    rcases hid with hid | rfl
    · exact (h.below id hid).trans hlt
    · exact hlt
  · by_cases hid : id = D.queue.nextId
    · simp [Docket.add, hid]
    · simp [Docket.add, hid, h.stored]
  · by_cases hid : id = D.queue.nextId
    · simp only [Docket.add, hid, Function.update_self, Option.some.injEq] at hq
      simp [← hq, hvotes]
    · simp only [Docket.add, Function.update_of_ne hid] at hq
      exact h.votes id q hq

end Consistent

end Docket

/-! ## Calls -/

/-- What a call of the governance module reports. -/
inductive GovEvent where
  | proposed (id : U64)
  | voted (id : U64) (outcome : GovVoteOutcome)
  | executed (id : U64)
  | elsewhere
deriving DecidableEq

def GovEvent.assigns : GovEvent → Option U64
  | proposed id => some id
  | _ => none

/-- The proposals that an event withdraws or carries out. -/
def GovEvent.closes : GovEvent → List U64
  | voted id (.withdrew target) => [target, id]
  | executed id => [id]
  | _ => []

namespace Docket

inductive Move (D : Docket) : List GovEvent → Docket → Prop where
  | propose {now : Height} {p : GovProposal} (hroom : (D.sweep now).queue.open_.length < MAX_OPEN_PROPOSALS)
      (hvotes : p.votes = []) (hcancel : ∀ target, p.action = .cancel target → (D.record target).isSome) :
      Move D [.proposed D.queue.nextId] ((D.sweep now).add p)
  | vote {id : U64} {p p' : GovProposal} {sender : Address} {schedule : Option Height} {outcome : GovVoteOutcome}
      (hp : D.record id = some p) (hvote : p.recordVote sender = some p')
      (houtcome : (GovEvent.voted id outcome).closes = []) :
      Move D [.voted id outcome] (D.put id { p' with scheduledFor := schedule })
  | withdraw {id target : U64} {p : GovProposal} (hp : D.record id = some p) (hcancel : p.action = .cancel target) :
      Move D [.voted id (.withdrew target)] ((D.remove target).remove id)
  | execute {id : U64} {p : GovProposal} (hp : D.record id = some p) : Move D [.executed id] (D.remove id)
  | elsewhere : Move D [.elsewhere] D

/-- The docket after the events `hist`: identifiers went up, and what was withdrawn or carried out is gone. -/
structure Inv (hist : List GovEvent) (D : Docket) : Prop extends D.Consistent where
  assigned : (hist.filterMap GovEvent.assigns).Pairwise (· < ·)
  assigned_lt : ∀ id ∈ hist.filterMap GovEvent.assigns, id < D.queue.nextId
  closed : ∀ id ∈ hist.flatMap GovEvent.closes, id < D.queue.nextId ∧ D.record id = none
  cancels : ∀ id p target, D.record id = some p → p.action = .cancel target → target < D.queue.nextId

variable {D D' : Docket} {es hist : List GovEvent}

theorem Inv.start : Inv [] ⟨{}, fun _ => none⟩ :=
  ⟨⟨by simp, by simp, by simp, by simp, by simp⟩, by simp, by simp, by simp, by simp⟩

theorem votes_recordVote {p p' : GovProposal} {sender : Address} (h : p.recordVote sender = some p')
    (hp : p.votes.Pairwise (· < ·)) : p'.votes.Pairwise (· < ·) := by
  obtain ⟨hnew, rfl⟩ := GovProposal.recordVote_eq_some h
  have hsorted : (p.votes.orderedInsert (· ≤ ·) sender).Pairwise (· ≤ ·) :=
    List.Pairwise.orderedInsert _ _ (hp.imp le_of_lt)
  have hnodup : (p.votes.orderedInsert (· ≤ ·) sender).Nodup :=
    (List.perm_orderedInsert _ _ _).nodup_iff.2 (List.nodup_cons.2 ⟨hnew, hp.imp ne_of_lt⟩)
  exact (hsorted.and hnodup).imp fun hab => lt_of_le_of_ne hab.1 hab.2

theorem Inv.remove (h : Inv hist D) (id : U64) : Inv hist (D.remove id) where
  toConsistent := h.toConsistent.remove id
  assigned := h.assigned
  assigned_lt := h.assigned_lt
  closed id' hid := by
    refine ⟨(h.closed id' hid).1, ?_⟩
    by_cases heq : id' = id
    · simp [Docket.remove, heq]
    · simp [Docket.remove, heq, (h.closed id' hid).2]
  cancels id' p target hp := by
    by_cases heq : id' = id
    · simp [Docket.remove, heq] at hp
    · simp only [Docket.remove, Function.update_of_ne heq] at hp
      exact h.cancels id' p target hp

theorem Inv.note (h : Inv hist D) (ev : GovEvent) (hassigns : ev.assigns = none)
    (hcloses : ∀ id ∈ ev.closes, id < D.queue.nextId ∧ D.record id = none) : Inv (hist ++ [ev]) D where
  toConsistent := h.toConsistent
  assigned := by simpa [hassigns] using h.assigned
  assigned_lt := by simpa [hassigns] using h.assigned_lt
  closed id hid := by
    rw [List.flatMap_append, List.mem_append] at hid
    rcases hid with hid | hid
    · exact h.closed id hid
    · exact hcloses id (by simpa using hid)
  cancels := h.cancels

theorem Inv.put (h : Inv hist D) {id : U64} {p p' : GovProposal} (hp : D.record id = some p)
    (hvotes : p'.votes.Pairwise (· < ·)) (haction : p'.action = p.action) : Inv hist (D.put id p') where
  toConsistent := h.toConsistent.put hp hvotes
  assigned := h.assigned
  assigned_lt := h.assigned_lt
  closed id' hid := by
    obtain ⟨hlt, hnone⟩ := h.closed id' hid
    have hne : id' ≠ id := by
      rintro rfl
      simp [hp] at hnone
    exact ⟨hlt, by simpa [Docket.put, hne] using hnone⟩
  cancels id' q target hq hcancel := by
    by_cases heq : id' = id
    · simp only [Docket.put, heq, Function.update_self, Option.some.injEq] at hq
      rw [← hq, haction] at hcancel
      exact h.cancels id p target hp hcancel
    · simp only [Docket.put, Function.update_of_ne heq] at hq
      exact h.cancels id' q target hq hcancel

theorem Inv.sweep (h : Inv hist D) (now : Height) : Inv hist (D.sweep now) where
  toConsistent := h.toConsistent.sweep
  assigned := h.assigned
  assigned_lt := h.assigned_lt
  closed id hid := by
    refine ⟨(h.closed id hid).1, ?_⟩
    rw [h.record_sweep, (h.closed id hid).2]
    rfl
  cancels id p target hp hcancel := by
    rw [h.record_sweep] at hp
    exact h.cancels id p target (Option.eq_some_of_filter_eq_some hp) hcancel

theorem Inv.add (h : Inv hist D) {p : GovProposal} (hroom : D.queue.open_.length < MAX_OPEN_PROPOSALS)
    (hvotes : p.votes = []) (hnext : D.queue.nextId < Fin.last _)
    (hcancel : ∀ target, p.action = .cancel target → target < D.queue.nextId) :
    Inv (hist ++ [.proposed D.queue.nextId]) (D.add p) := by
  have hlt : D.queue.nextId < (D.add p).queue.nextId := lt_saturatingAdd_one hnext
  refine ⟨h.toConsistent.add hroom hvotes hnext, ?_, fun id hid => ?_, fun id hid => ?_, fun id q target hq hc => ?_⟩
  · rw [List.filterMap_append, List.pairwise_append]
    refine ⟨h.assigned, by simp [GovEvent.assigns], fun a ha b hb => ?_⟩
    obtain rfl : D.queue.nextId = b := by simpa [GovEvent.assigns, eq_comm] using hb
    exact h.assigned_lt a ha
  · rw [List.filterMap_append, List.mem_append] at hid
    rcases hid with hid | hid
    · exact (h.assigned_lt id hid).trans hlt
    · obtain rfl : D.queue.nextId = id := by simpa [GovEvent.assigns, eq_comm] using hid
      exact hlt
  · obtain ⟨hbelow, hnone⟩ := h.closed id (by simpa [GovEvent.closes] using hid)
    exact ⟨hbelow.trans hlt, by simpa [Docket.add, hbelow.ne] using hnone⟩
  · by_cases heq : id = D.queue.nextId
    · simp only [Docket.add, heq, Function.update_self, Option.some.injEq] at hq
      exact (hcancel target (hq ▸ hc)).trans hlt
    · simp only [Docket.add, Function.update_of_ne heq] at hq
      exact (h.cancels id q target hq hc).trans hlt

theorem Inv.move (h : Inv hist D) (hmove : Move D es D') (hnext : ∀ id, .proposed id ∈ es → id < Fin.last _) :
    Inv (hist ++ es) D' := by
  cases hmove with
  | @propose now p hroom hvotes hcancel =>
    refine (h.sweep now).add hroom hvotes (hnext _ (.head _)) fun target htarget => ?_
    exact h.below target ((h.stored target).2 (hcancel target htarget))
  | @vote id p p' sender schedule outcome hp hvote houtcome =>
    have hvotes := votes_recordVote hvote (h.votes id p hp)
    have haction : p'.action = p.action := by rw [(GovProposal.recordVote_eq_some hvote).2]
    have hput : Inv hist (D.put id { p' with scheduledFor := schedule }) := h.put hp hvotes haction
    refine hput.note (.voted id outcome) rfl fun id' hid => ?_
    rw [houtcome] at hid
    cases hid
  | @withdraw id target p hp hcancel =>
    refine ((h.remove target).remove id).note _ rfl fun id' hid => ?_
    have hor : id' = target ∨ id' = id := by simpa [GovEvent.closes] using hid
    rcases hor with rfl | rfl
    · refine ⟨h.cancels id p id' hp hcancel, ?_⟩
      by_cases heq : id' = id <;> simp [Docket.remove, heq]
    · exact ⟨h.lt_nextId hp, by simp [Docket.remove]⟩
  | @execute id p hp =>
    refine (h.remove id).note _ rfl fun id' hid => ?_
    obtain rfl : id' = id := by simpa [GovEvent.closes] using hid
    exact ⟨h.lt_nextId hp, by simp [Docket.remove]⟩
  | elsewhere => exact h.note _ rfl (by simp [GovEvent.closes])

end Docket

/-! ## The module keeps a docket -/

namespace Governance

variable {s s' : Store} {id : U64} {now : Height} {sender : Address}

theorem checkAction_cancel {target : U64} (h : Runs (checkAction (.cancel target)) s () s') :
    (s.docket.record target).isSome := by
  obtain ⟨p, t, hread, -⟩ := Runs.bind_iff.1 h
  obtain ⟨hp, rfl⟩ := runs_requireProposal hread
  simp [Store.docket, hp]

theorem docket_propose {action : GovAction} {new : U64} (h : Runs (propose sender action now) s new s') :
    s.docket.Move [.proposed new] s'.docket := by
  obtain ⟨hcheck, hroom, rfl, hdocket⟩ := propose_cases h
  rw [hdocket]
  refine .propose hroom rfl fun target htarget => ?_
  cases htarget
  exact checkAction_cancel hcheck

theorem docket_vote {outcome : GovVoteOutcome} (h : Runs (vote sender id now) s outcome s') :
    s.docket.Move [.voted id outcome] s'.docket := by
  obtain ⟨c, p, p', -, hp, hopen, -, hvote, hvoted⟩ := vote_cases h
  cases hvoted with
  | recorded =>
    rw [docket_set_proposal]
    exact .vote hp hvote rfl
  | withdrew _ haction hfirst hsecond =>
    rw [docket_remove hsecond, docket_remove hfirst]
    obtain ⟨-, rfl⟩ := GovProposal.recordVote_eq_some hvote
    exact .withdraw hp haction
  | scheduled =>
    rw [docket_set_proposal]
    exact .vote hp hvote rfl

theorem docket_execute {action : GovAction} (h : Runs (execute id now) s action s') :
    s.docket.Move [.executed id] s'.docket := by
  obtain ⟨p, due, hp, -, -, -, hdocket⟩ := runs_execute h
  rw [hdocket]
  exact .execute hp

end Governance

end AfroLink
