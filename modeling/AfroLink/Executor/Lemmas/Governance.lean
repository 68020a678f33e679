import AfroLink.Executor.Lemmas.Currency
import AfroLink.Executor.Lemmas.Names
import AfroLink.Executor.Lemmas.Regular
import AfroLink.Gov.Lemmas.Council

/-!
# What a message does to what is governed

The council, the parameters, the licences and the admitted denominations change by the action of a proposal that is
carried out, and by nothing else.
-/

namespace AfroLink

/-! ## Views -/

@[ext] structure Governed where
  council : Option Council
  params : Option ChainParams
  attestor : Address → Option Attestor
  admitted : Denom → Bool

namespace Governed

def enact (G : Governed) : GovAction → Governed
  | .setCouncil c => { G with council := some c }
  | .setParams p => { G with params := some p }
  | .licenseAttestor a r => { G with attestor := Function.update G.attestor a (some r) }
  | .setAttestorActive a active =>
    { G with attestor := Function.update G.attestor a ((G.attestor a).map ({ · with active })) }
  | .admitDenom d _ => { G with admitted := Function.update G.admitted d true }
  | .cancel _ => G

end Governed

namespace Store

def seatedCouncil (s : Store) : Option Council := s.valueAt .council

def proposalAt (s : Store) (id : U64) : Option GovProposal := s.valueAt (.proposal id)

def attestorAt (s : Store) (a : Address) : Option Attestor := s.valueAt (.attestor a)

def governed (s : Store) : Governed where
  council := s.seatedCouncil
  params := s.valueAt .params
  attestor := s.attestorAt
  admitted d := (s.issuerOf d).isSome

variable {s s' : Store}

theorem governed_eq {G : Governed} (hcouncil : s.seatedCouncil = G.council) (hparams : s.valueAt .params = G.params)
    (hattestor : ∀ a, s.attestorAt a = G.attestor a) (hadmitted : ∀ d, (s.issuerOf d).isSome = G.admitted d) :
    s.governed = G :=
  Governed.ext hcouncil hparams (funext hattestor) (funext hadmitted)

theorem governed_congr (hcouncil : s' .council = s .council) (hparams : s' .params = s .params)
    (hattestor : ∀ a, s' (.attestor a) = s (.attestor a)) (hissuer : ∀ d, (s'.issuerOf d).isSome = (s.issuerOf d).isSome) :
    s'.governed = s.governed :=
  Governed.ext (valueAt_congr hcouncil) (valueAt_congr hparams) (funext fun a => valueAt_congr (hattestor a))
    (funext hissuer)

theorem chainParams_congr (h : s' .params = s .params) : s'.chainParams = s.chainParams := by
  unfold chainParams
  rw [getDecoded_congr h]

end Store

/-! ## Reading -/

namespace Governance

variable {s s' : Store} {id : U64} {now : Height} {sender : Address}

theorem runs_params {p : ChainParams} (h : Runs params s p s') : p = s.chainParams ∧ s' = s := by
  obtain ⟨v, t, hv, hdone⟩ := Runs.bind_iff.1 h
  obtain ⟨hread, rfl⟩ := (runs_getDecoded (k := .params)).1 hv
  obtain ⟨rfl, rfl⟩ := Runs.pure_iff.1 hdone
  unfold Store.chainParams
  rw [hread]
  cases v <;> exact ⟨rfl, rfl⟩

theorem runs_council {v : Option Council} (h : Runs council s v s') : s.seatedCouncil = v ∧ s' = s := by
  obtain ⟨hread, rfl⟩ := (runs_getDecoded (k := .council)).1 h
  exact ⟨Store.valueAt_of_read hread, rfl⟩

theorem runs_requireCouncil {c : Council} (h : Runs requireCouncil s c s') : s.seatedCouncil = some c ∧ s' = s := by
  obtain ⟨v, t, hv, hmatch⟩ := Runs.bind_iff.1 h
  obtain ⟨hcouncil, rfl⟩ := runs_council hv
  cases v with
  | none => exact (Runs.throw_iff.1 hmatch).elim
  | some c' =>
    obtain ⟨rfl, rfl⟩ := Runs.pure_iff.1 hmatch
    exact ⟨hcouncil, rfl⟩

theorem runs_proposal {v : Option GovProposal} (h : Runs (proposal id) s v s') : s.proposalAt id = v ∧ s' = s := by
  obtain ⟨hread, rfl⟩ := (runs_getDecoded (k := .proposal id)).1 h
  exact ⟨Store.valueAt_of_read hread, rfl⟩

theorem runs_requireProposal {p : GovProposal} (h : Runs (requireProposal id) s p s') :
    s.proposalAt id = some p ∧ s' = s := by
  obtain ⟨v, t, hv, hmatch⟩ := Runs.bind_iff.1 h
  obtain ⟨hproposal, rfl⟩ := runs_proposal hv
  cases v with
  | none => exact (Runs.throw_iff.1 hmatch).elim
  | some p' =>
    obtain ⟨rfl, rfl⟩ := Runs.pure_iff.1 hmatch
    exact ⟨hproposal, rfl⟩

end Governance

namespace Bindings

variable {s s' : Store} {a : Address}

theorem runs_requireAttestor {r : Attestor} (h : Runs (requireAttestor a) s r s') : s.attestorAt a = some r ∧ s' = s := by
  obtain ⟨v, t, hv, hmatch⟩ := Runs.bind_iff.1 h
  obtain ⟨hread, rfl⟩ := (runs_getDecoded (k := .attestor a)).1 hv
  cases v with
  | none => exact (Runs.throw_iff.1 hmatch).elim
  | some r' =>
    obtain ⟨rfl, rfl⟩ := Runs.pure_iff.1 hmatch
    exact ⟨Store.valueAt_of_read hread, rfl⟩

end Bindings

/-! ## Council and parameters -/

namespace Governance

variable {s s' : Store} {id : U64} {now : Height} {sender : Address}

theorem runs_setCouncil {c : Council} (h : Runs (setCouncil c) s () s') :
    c.checkConcentration s.chainParams.maxCouncilCountryShareBps = .ok () ∧ s' = s.set .council c := by
  obtain ⟨p, t, hp, hrest⟩ := Runs.bind_iff.1 h
  obtain ⟨rfl, rfl⟩ := runs_params hp
  obtain ⟨_, hok, hset⟩ := Runs.lift hrest
  obtain rfl := runs_setEncoded.1 hset
  exact ⟨hok, rfl⟩

theorem runs_setParams {p : ChainParams} (h : Runs (setParams p) s () s') :
    p.validateChangeFrom s.chainParams = .ok () ∧
      (∀ c, s.seatedCouncil = some c → c.checkConcentration p.maxCouncilCountryShareBps = .ok ()) ∧
      s' = s.set .params p := by
  obtain ⟨current, t, hcurrent, hrest⟩ := Runs.bind_iff.1 h
  obtain ⟨rfl, rfl⟩ := runs_params hcurrent
  obtain ⟨_, hok, hrest'⟩ := Runs.lift hrest
  obtain ⟨v, t, hv, hmatch⟩ := Runs.bind_iff.1 hrest'
  obtain ⟨hcouncil, rfl⟩ := runs_council hv
  cases v with
  | none =>
    obtain rfl := runs_setEncoded.1 hmatch
    refine ⟨hok, fun c hc => ?_, rfl⟩
    cases hcouncil.symm.trans hc
  | some c =>
    obtain ⟨_, hconcentration, hset⟩ := Runs.lift hmatch
    obtain rfl := runs_setEncoded.1 hset
    refine ⟨hok, fun c' hc => ?_, rfl⟩
    cases hcouncil.symm.trans hc
    exact hconcentration

end Governance

/-! ## Proposals -/

@[ext] structure Docket where
  queue : ProposalQueue
  record : U64 → Option GovProposal

def GovProposal.live (now : Height) (p : GovProposal) : Bool := p.scheduledFor.isSome || now ≤ p.votingEnds

namespace Docket

def sweep (D : Docket) (now : Height) : Docket where
  queue := { D.queue with open_ := D.queue.open_.filter fun id => (D.record id).any (·.live now) }
  record id := if id ∈ D.queue.open_ then (D.record id).filter (·.live now) else D.record id

def add (D : Docket) (p : GovProposal) : Docket where
  queue := ⟨D.queue.nextId.saturatingAdd 1, D.queue.open_ ++ [D.queue.nextId]⟩
  record := Function.update D.record D.queue.nextId (some p)

def put (D : Docket) (id : U64) (p : GovProposal) : Docket :=
  { D with record := Function.update D.record id (some p) }

def remove (D : Docket) (id : U64) : Docket where
  queue := { D.queue with open_ := D.queue.open_.filter (· ≠ id) }
  record := Function.update D.record id none

theorem record_sweep_cases (D : Docket) (now : Height) (id : U64) :
    (D.sweep now).record id = D.record id ∨ (D.sweep now).record id = none := by
  rw [sweep]
  dsimp only
  split
  · cases D.record id with
    | none => exact .inr rfl
    | some p =>
      cases hlive : p.live now with
      | true => exact .inl (Option.filter_some_pos hlive)
      | false => exact .inr (Option.filter_some_neg (by simp [hlive]))
  · exact .inl rfl

end Docket

def Store.docket (s : Store) : Docket := ⟨(s.valueAt .proposalIndex).getD {}, s.proposalAt⟩

namespace Governance

variable {s s' : Store} {id : U64} {now : Height} {sender : Address}

theorem proposalAt_set {p : GovProposal} : (s.set (.proposal id) p).proposalAt = Function.update s.proposalAt id (some p) := by
  funext id'
  rcases eq_or_ne id' id with rfl | hne
  · rw [Function.update_self, Store.proposalAt, Store.valueAt_set_self]
  · rw [Function.update_of_ne hne, Store.proposalAt, Store.valueAt_set_of_ne (by simpa using hne), Store.proposalAt]

theorem proposalAt_delete : (s.delete (.proposal id)).proposalAt = Function.update s.proposalAt id none := by
  funext id'
  rcases eq_or_ne id' id with rfl | hne
  · rw [Function.update_self, Store.proposalAt, Store.valueAt_delete_self]
  · rw [Function.update_of_ne hne, Store.proposalAt, Store.valueAt_delete_of_ne (by simpa using hne), Store.proposalAt]

variable {q : ProposalQueue}

theorem proposalAt_set_index : (s.set .proposalIndex q).proposalAt = s.proposalAt :=
  funext fun _ => Store.valueAt_set_of_ne nofun

theorem runs_queue_eq (h : Runs queue s q s') : q = s.docket.queue ∧ s' = s := by
  obtain ⟨v, t, hv, hdone⟩ := Runs.bind_iff.1 h
  obtain ⟨hread, rfl⟩ := (runs_getDecoded (k := .proposalIndex)).1 hv
  obtain ⟨rfl, rfl⟩ := Runs.pure_iff.1 hdone
  exact ⟨by rw [Store.docket, Store.valueAt_of_read hread], rfl⟩

theorem docket_set_index : (s.set .proposalIndex q).docket = ⟨q, s.proposalAt⟩ := by
  rw [Store.docket, Store.valueAt_set_self, proposalAt_set_index]
  rfl

theorem docket_set_proposal {p : GovProposal} : (s.set (.proposal id) p).docket = s.docket.put id p := by
  have hne : StoreKey.proposalIndex ≠ .proposal id := nofun
  rw [Store.docket, Store.valueAt_set_of_ne hne, proposalAt_set]
  rfl

theorem queue_delete_proposal : (s.delete (.proposal id)).docket.queue = s.docket.queue := by
  have hne : StoreKey.proposalIndex ≠ .proposal id := nofun
  rw [Store.docket, Store.valueAt_delete_of_ne hne]
  rfl

theorem docket_remove (h : Runs (remove id) s () s') : s'.docket = s.docket.remove id := by
  obtain ⟨_, t, hdelete, hrest⟩ := Runs.bind_iff.1 h
  obtain rfl := runs_deleteKey.1 hdelete
  obtain ⟨q, t, hqueue, hset⟩ := Runs.bind_iff.1 hrest
  obtain ⟨rfl, rfl⟩ := runs_queue_eq hqueue
  obtain rfl := runs_setEncoded.1 hset
  rw [docket_set_index, proposalAt_delete, queue_delete_proposal]
  rfl

theorem proposalAt_remove (h : Runs (remove id) s () s') : s'.proposalAt = Function.update s.proposalAt id none :=
  congrArg Docket.record (docket_remove h)

theorem sweepIds_exact {ids kept : List U64} (h : Runs (sweepIds now ids) s kept s') :
    kept = ids.filter (fun id => (s.proposalAt id).any (·.live now)) ∧
      s'.proposalAt = fun id => if id ∈ ids then (s.proposalAt id).filter (·.live now) else s.proposalAt id := by
  induction ids generalizing s kept with
  | nil =>
    obtain ⟨rfl, rfl⟩ := Runs.pure_iff.1 h
    exact ⟨rfl, by simp⟩
  | cons first rest ih =>
    obtain ⟨v, t, hv, hmatch⟩ := Runs.bind_iff.1 h
    obtain ⟨hrec, rfl⟩ := runs_proposal hv
    cases v with
    | none =>
      obtain ⟨rfl, hrecords⟩ := ih hmatch
      refine ⟨by simp [hrec], hrecords.trans (funext fun id => ?_)⟩
      by_cases hid : id = first
      · simp [hid, hrec]
      · simp [hid]
    | some p =>
      rcases Runs.ite_iff.1 hmatch with ⟨hlive, hkeep⟩ | ⟨hlapsed, hdrop⟩
      · obtain ⟨kept', t', hrest, hdone⟩ := Runs.bind_iff.1 hkeep
        obtain ⟨rfl, rfl⟩ := Runs.pure_iff.1 hdone
        obtain ⟨rfl, hrecords⟩ := ih hrest
        have hp : p.live now = true := hlive
        refine ⟨by simp [hrec, hp], hrecords.trans (funext fun id => ?_)⟩
        by_cases hid : id = first
        · simp [hid, hrec, Option.filter, hp]
        · simp [hid]
      · obtain ⟨_, t', hdelete, hrest⟩ := Runs.bind_iff.1 hdrop
        obtain rfl := runs_deleteKey.1 hdelete
        obtain ⟨rfl, hrecords⟩ := ih hrest
        have hp : p.live now = false := by simpa [GovProposal.live] using hlapsed
        rw [proposalAt_delete] at hrecords
        constructor
        · rw [List.filter_cons_of_neg (by simp [hrec, hp]), proposalAt_delete]
          refine List.filter_congr fun id _ => ?_
          by_cases hid : id = first
          · simp [hid, hrec, hp]
          · simp [hid]
        · refine hrecords.trans (funext fun id => ?_)
          by_cases hid : id = first
          · simp [hid, hrec, Option.filter, hp]
          · simp [hid]

theorem docket_sweepLapsed (h : Runs (sweepLapsed now) s q s') :
    q = (s.docket.sweep now).queue ∧ s'.docket = s.docket.sweep now := by
  obtain ⟨q', t, hqueue, hrest⟩ := Runs.bind_iff.1 h
  obtain ⟨rfl, rfl⟩ := runs_queue_eq hqueue
  obtain ⟨kept, t', hsweep, hrest'⟩ := Runs.bind_iff.1 hrest
  have hdone := runs_setEncoded_bind.1 hrest'
  obtain ⟨rfl, rfl⟩ := Runs.pure_iff.1 hdone
  obtain ⟨rfl, hrecords⟩ := sweepIds_exact hsweep
  rw [docket_set_index, hrecords]
  exact ⟨rfl, rfl⟩

theorem propose_cases {action : GovAction} {new : U64} (h : Runs (propose sender action now) s new s') :
    Runs (checkAction action) s () s ∧ (s.docket.sweep now).queue.open_.length < MAX_OPEN_PROPOSALS ∧
      new = s.docket.queue.nextId ∧
      s'.docket = (s.docket.sweep now).add
        ⟨new, sender, action, now, Fin.saturatingAdd now s.chainParams.votingPeriodBlocks, [], none⟩ := by
  obtain ⟨c, t, hcouncil, hseated⟩ := Runs.bind_iff.1 h
  obtain ⟨-, rfl⟩ := runs_requireCouncil hcouncil
  obtain ⟨-, hfirst⟩ := Runs.guard_iff.1 hseated
  obtain ⟨_, -, hchecks⟩ := Runs.lift hfirst
  obtain ⟨_, t, hcheck, hsweeps⟩ := Runs.bind_iff.1 hchecks
  obtain rfl := ((checkAction_keeps (C := False)).run hcheck).1.eq_of_bot
  obtain ⟨q, t, hsweep, hroom⟩ := Runs.bind_iff.1 hsweeps
  have hparams := sweepLapsed_keeps.frame (k := .params) hsweep nofun
  obtain ⟨rfl, hswept⟩ := docket_sweepLapsed hsweep
  obtain ⟨hlen, hreads⟩ := Runs.guard_iff.1 hroom
  obtain ⟨p, t', hread, hwrites⟩ := Runs.bind_iff.1 hreads
  obtain ⟨rfl, rfl⟩ := runs_params hread
  have hlast := runs_setEncoded_bind.1 hwrites
  have hdone := runs_setEncoded_bind.1 hlast
  obtain ⟨rfl, rfl⟩ := Runs.pure_iff.1 hdone
  have hrecord : Store.proposalAt _ = _ := congrArg Docket.record hswept
  refine ⟨hcheck, not_le.1 hlen, rfl, ?_⟩
  rw [docket_set_proposal, docket_set_index, hrecord, Store.chainParams_congr hparams]
  rfl

/-- What a vote that is counted leaves; `p` has the vote in it. -/
inductive Voted (s : Store) (id : U64) (now : Height) (c : Council) (p : GovProposal) : GovVoteOutcome → Store → Prop
  | recorded : Voted s id now c p .recorded (s.set (.proposal id) p)
  | withdrew {target : U64} {t s' : Store} (reached : c.reached (tally c p.votes) = true)
      (action : p.action = .cancel target) (first : Runs (remove target) s () t) (second : Runs (remove id) t () s') :
      Voted s id now c p (.withdrew target) s'
  | scheduled (reached : c.reached (tally c p.votes) = true) :
      Voted s id now c p (.scheduled (Fin.saturatingAdd now s.chainParams.timelockBlocks)) (s.set (.proposal id)
        { p with scheduledFor := some (Fin.saturatingAdd now s.chainParams.timelockBlocks) })

theorem vote_cases {outcome : GovVoteOutcome} (h : Runs (vote sender id now) s outcome s') :
    ∃ c p p', s.seatedCouncil = some c ∧ s.proposalAt id = some p ∧ p.scheduledFor = none ∧ now ≤ p.votingEnds ∧
      p.recordVote sender = some p' ∧ Voted s id now c p' outcome s' := by
  obtain ⟨c, t, hcouncils, hseated⟩ := Runs.bind_iff.1 h
  obtain ⟨hcouncil, rfl⟩ := runs_requireCouncil hcouncils
  obtain ⟨-, hfirst⟩ := Runs.guard_iff.1 hseated
  obtain ⟨p, t, hread, hunscheduled⟩ := Runs.bind_iff.1 hfirst
  obtain ⟨hp, rfl⟩ := runs_requireProposal hread
  obtain ⟨hscheduled, hintime⟩ := Runs.guard_iff.1 hunscheduled
  obtain ⟨hends, hmatch⟩ := Runs.guard_iff.1 hintime
  split at hmatch
  · exact (Runs.throw_iff.1 hmatch).elim
  rename_i p' hvote
  refine ⟨c, p, p', hcouncil, hp, by simpa using hscheduled, not_lt.1 hends, hvote, ?_⟩
  rcases Runs.ite_iff.1 hmatch with ⟨-, hrecord⟩ | ⟨hreached, hpass⟩
  · obtain ⟨_, t, hset, hdone⟩ := Runs.bind_iff.1 hrecord
    obtain rfl := runs_setEncoded.1 hset
    obtain ⟨rfl, rfl⟩ := Runs.pure_iff.1 hdone
    exact .recorded
  · replace hreached : c.reached (tally c p'.votes) = true := by simpa using hreached
    split at hpass
    · rename_i target haction
      obtain ⟨_, t', hfirstRemove, hlast⟩ := Runs.bind_iff.1 hpass
      obtain ⟨_, t'', hsecondRemove, hdone⟩ := Runs.bind_iff.1 hlast
      obtain ⟨rfl, rfl⟩ := Runs.pure_iff.1 hdone
      exact .withdrew hreached haction hfirstRemove hsecondRemove
    · obtain ⟨ps, t', hparams, hlast⟩ := Runs.bind_iff.1 hpass
      obtain ⟨rfl, rfl⟩ := runs_params hparams
      have hdone := runs_setEncoded_bind.1 hlast
      obtain ⟨rfl, rfl⟩ := Runs.pure_iff.1 hdone
      exact .scheduled hreached

theorem runs_execute {action : GovAction} (h : Runs (execute id now) s action s') :
    ∃ p due, s.proposalAt id = some p ∧ p.scheduledFor = some due ∧ due ≤ now ∧ p.action = action ∧
      s'.docket = s.docket.remove id := by
  obtain ⟨p, t, hread, hmatch⟩ := Runs.bind_iff.1 h
  obtain ⟨hp, rfl⟩ := runs_requireProposal hread
  split at hmatch
  · exact (Runs.throw_iff.1 hmatch).elim
  · rename_i due hdue
    obtain ⟨hearly, hrest⟩ := Runs.guard_iff.1 hmatch
    obtain ⟨_, t', hremove, hdone⟩ := Runs.bind_iff.1 hrest
    obtain ⟨rfl, rfl⟩ := Runs.pure_iff.1 hdone
    exact ⟨p, due, hp, hdue, not_lt.1 hearly, rfl, docket_remove hremove⟩

end Governance

/-- What a message of `sender` may leave of the proposal `id`: itself unless it is carried out, nothing, a new
proposal, or the proposal with one more vote, put on schedule if it now has the weight. -/
inductive DocketStep (ctx : BlockContext) (sender : Address) (s : Store) (id : U64) : Message → Option GovProposal → Prop
  | kept {m : Message} (hm : m ≠ .executeGovAction id) : DocketStep ctx sender s id m (s.proposalAt id)
  | gone {m : Message} : DocketStep ctx sender s id m none
  | opened {action : GovAction} : DocketStep ctx sender s id (.proposeGovAction action)
      (some ⟨id, sender, action, ctx.height, Fin.saturatingAdd ctx.height s.chainParams.votingPeriodBlocks, [], none⟩)
  | voted {p p' : GovProposal} (hp : s.proposalAt id = some p) (hopen : p.scheduledFor = none)
      (hvote : p.recordVote sender = some p') : DocketStep ctx sender s id (.voteGovAction id) (some p')
  | passed {c : Council} {p p' : GovProposal} (hc : s.seatedCouncil = some c) (hp : s.proposalAt id = some p)
      (hopen : p.scheduledFor = none) (hends : ctx.height ≤ p.votingEnds) (hvote : p.recordVote sender = some p')
      (hreached : c.reached (Governance.tally c p'.votes) = true) :
      DocketStep ctx sender s id (.voteGovAction id)
        (some { p' with scheduledFor := some (Fin.saturatingAdd ctx.height s.chainParams.timelockBlocks) })

namespace Governance

variable {s s' : Store} {id : U64} {ctx : BlockContext} {sender : Address}

theorem runs_propose {action : GovAction} {new : U64} (h : Runs (propose sender action ctx.height) s new s') (id : U64) :
    DocketStep ctx sender s id (.proposeGovAction action) (s'.proposalAt id) := by
  obtain ⟨-, -, rfl, hdocket⟩ := propose_cases h
  have hrecord : s'.proposalAt id = Function.update (s.docket.sweep ctx.height).record s.docket.queue.nextId _ id :=
    congrFun (congrArg Docket.record hdocket) id
  rw [hrecord]
  rcases eq_or_ne id s.docket.queue.nextId with rfl | hne
  · rw [Function.update_self]
    exact .opened
  · rw [Function.update_of_ne hne]
    rcases s.docket.record_sweep_cases ctx.height id with hsame | hnone
    · rw [hsame]
      exact .kept nofun
    · rw [hnone]
      exact .gone

theorem runs_vote {voted : U64} {outcome : GovVoteOutcome} (h : Runs (vote sender voted ctx.height) s outcome s') (id : U64) :
    DocketStep ctx sender s id (.voteGovAction voted) (s'.proposalAt id) := by
  obtain ⟨c, p, p', hcouncil, hp, hopen, hends, hvote, hvoted⟩ := vote_cases h
  rcases eq_or_ne id voted with rfl | hne
  · cases hvoted with
    | recorded =>
      rw [proposalAt_set, Function.update_self]
      exact .voted hp hopen hvote
    | withdrew _ _ _ hsecond =>
      rw [proposalAt_remove hsecond, Function.update_self]
      exact .gone
    | scheduled hreached =>
      rw [proposalAt_set, Function.update_self]
      exact .passed hcouncil hp hopen hends hvote hreached
  · cases hvoted with
    | recorded | scheduled =>
      rw [proposalAt_set, Function.update_of_ne hne]
      exact .kept nofun
    | @withdrew target _ _ _ _ hfirst hsecond =>
      rw [proposalAt_remove hsecond, Function.update_of_ne hne, proposalAt_remove hfirst]
      rcases eq_or_ne id target with rfl | hne'
      · rw [Function.update_self]
        exact .gone
      · rw [Function.update_of_ne hne']
        exact .kept nofun

end Governance

/-! ## Actions -/

section

variable {s s' : Store}

namespace Store

theorem governed_set_council {c : Council} : (s.set .council c).governed = s.governed.enact (.setCouncil c) := by
  refine governed_eq ?_ ?_ (fun a => ?_) fun d => ?_
  · exact valueAt_set_self
  · exact valueAt_set_of_ne (by nofun)
  · exact valueAt_set_of_ne (by nofun)
  · rw [issuerOf_congr (set_of_ne (by nofun))]
    rfl

theorem governed_set_params {p : ChainParams} : (s.set .params p).governed = s.governed.enact (.setParams p) := by
  refine governed_eq ?_ ?_ (fun a => ?_) fun d => ?_
  · exact valueAt_set_of_ne (by nofun)
  · exact valueAt_set_self
  · exact valueAt_set_of_ne (by nofun)
  · rw [issuerOf_congr (set_of_ne (by nofun))]
    rfl

theorem governed_set_attestor {a : Address} {r : Attestor} :
    (s.set (.attestor a) r).governed = s.governed.enact (.licenseAttestor a r) := by
  refine governed_eq ?_ ?_ (fun b => ?_) fun d => ?_
  · exact valueAt_set_of_ne (by nofun)
  · exact valueAt_set_of_ne (by nofun)
  · simp only [Governed.enact]
    rcases eq_or_ne b a with rfl | hne
    · rw [attestorAt, valueAt_set_self, Function.update_self]
    · rw [attestorAt, valueAt_set_of_ne (by simpa using hne), Function.update_of_ne hne]
      rfl
  · rw [issuerOf_congr (set_of_ne (by nofun))]
    rfl

theorem governed_set_issuer {d : Denom} {authority : Address} :
    (s.set (.issuer d) (Issuer.new authority)).governed = s.governed.enact (.admitDenom d authority) := by
  refine governed_eq ?_ ?_ (fun b => ?_) fun d' => ?_
  · exact valueAt_set_of_ne (by nofun)
  · exact valueAt_set_of_ne (by nofun)
  · exact valueAt_set_of_ne (by nofun)
  · simp only [Governed.enact]
    rcases eq_or_ne d' d with rfl | hne
    · rw [issuerOf_of_cell set_self (Issuer.new_sound authority), Function.update_self]
      rfl
    · rw [issuerOf_congr (set_of_ne (by simpa using hne)), Function.update_of_ne hne]
      rfl

end Store

theorem Exec.ensureAccount_governed {a : Address} (h : Runs (ensureAccount a) s () s') : s'.governed = s.governed :=
  Store.governed_congr (ensureAccount_frame h nofun) (ensureAccount_frame h nofun)
    (fun _ => ensureAccount_frame h nofun) fun _ => congrArg _ (Store.issuerOf_congr (ensureAccount_frame h nofun))

theorem Exec.applyGovAction_governed {action : GovAction} (h : Runs (applyGovAction action) s () s') :
    s'.governed = s.governed.enact action := by
  cases action with
  | setCouncil c =>
    obtain ⟨-, rfl⟩ := Governance.runs_setCouncil (Runs.mapErr_iff.1 h)
    exact Store.governed_set_council
  | setParams p =>
    obtain ⟨-, -, rfl⟩ := Governance.runs_setParams (Runs.mapErr_iff.1 h)
    exact Store.governed_set_params
  | licenseAttestor a r =>
    obtain ⟨_, t, hregister, hensure⟩ := Runs.bind_iff.1 h
    obtain rfl := runs_setEncoded.1 (Runs.mapErr_iff.1 hregister)
    rw [ensureAccount_governed hensure]
    exact Store.governed_set_attestor
  | setAttestorActive a active =>
    obtain ⟨r, t, hrequire, hset⟩ := Runs.bind_iff.1 (Runs.mapErr_iff.1 h)
    obtain ⟨hr, rfl⟩ := Bindings.runs_requireAttestor hrequire
    obtain rfl := runs_setEncoded.1 hset
    have henact : t.governed.enact (.setAttestorActive a active) =
        t.governed.enact (.licenseAttestor a { r with active }) := by
      simp only [Governed.enact, Store.governed, hr, Option.map_some]
    rw [henact]
    exact Store.governed_set_attestor
  | admitDenom d authority =>
    obtain ⟨_, t, hadmit, hensure⟩ := Runs.bind_iff.1 h
    obtain ⟨-, rfl⟩ := Bank.runs_admitIssuer (Runs.mapErr_iff.1 hadmit)
    rw [ensureAccount_governed hensure]
    exact Store.governed_set_issuer
  | cancel id => exact (Runs.throw_iff.1 h).elim

theorem Exec.applyGovAction_isDocket {action : GovAction} {k : StoreKey} (hk : k.isDocket = true)
    (h : Runs (applyGovAction action) s () s') : s' k = s k := by
  have hne : ∀ {k' : StoreKey}, k'.isDocket = false → k ≠ k' := by
    rintro k' hk' rfl
    cases hk.symm.trans hk'
  cases action with
  | setCouncil c =>
    obtain ⟨-, rfl⟩ := Governance.runs_setCouncil (Runs.mapErr_iff.1 h)
    exact Store.set_of_ne (hne rfl)
  | setParams p =>
    obtain ⟨-, -, rfl⟩ := Governance.runs_setParams (Runs.mapErr_iff.1 h)
    exact Store.set_of_ne (hne rfl)
  | licenseAttestor a r =>
    obtain ⟨_, t, hregister, hensure⟩ := Runs.bind_iff.1 h
    obtain rfl := runs_setEncoded.1 (Runs.mapErr_iff.1 hregister)
    rw [ensureAccount_frame hensure (hne rfl), Store.set_of_ne (hne rfl)]
  | setAttestorActive a active =>
    exact Bindings.setAttestorActive_keeps.frame (Runs.mapErr_iff.1 h) (hne rfl)
  | admitDenom d authority =>
    obtain ⟨_, t, hadmit, hensure⟩ := Runs.bind_iff.1 h
    obtain ⟨-, rfl⟩ := Bank.runs_admitIssuer (Runs.mapErr_iff.1 hadmit)
    rw [ensureAccount_frame hensure (hne rfl), Store.set_of_ne (hne rfl)]
  | cancel id => exact (Runs.throw_iff.1 h).elim

theorem Exec.applyGovAction_proposalAt {action : GovAction} {id : U64} (h : Runs (applyGovAction action) s () s') :
    s'.proposalAt id = s.proposalAt id := Store.valueAt_congr (applyGovAction_isDocket rfl h)

end

/-! ## Messages and events -/

def Contacts.Concerns : Message → Prop
  | .attestContact .. | .requestRebind .. | .vetoRebind _ | .applyRebind _ | .revokeContact _ => True
  | _ => False

section

variable [Crypto] {ctx : BlockContext} {sender : Address} {m : Message} {s s' : Store} {es : List StoreEvent}

namespace Exec

theorem applyMessage_contact_frame (hm : Contacts.Concerns m) (h : Runs (applyMessage ctx sender m) s () s')
    {k : StoreKey} (hcontact : ∀ c, k ≠ .contact c) (haccount : ∀ a, k ≠ .account a) : s' k = s k := by
  cases m with
  | attestContact c a =>
    obtain ⟨_, t, hattest, hensure⟩ := Runs.bind_iff.1 h
    rw [ensureAccount_frame hensure (haccount a)]
    exact Bindings.attest_keeps.frame (Runs.mapErr_iff.1 hattest) (hcontact _)
  | requestRebind c a =>
    obtain ⟨p, t, hparams, hrequest⟩ := Runs.bind_iff.1 h
    rw [Bindings.requestRebind_keeps.frame (Runs.mapErr_iff.1 hrequest) (hcontact _),
      ((paramsOf_keeps (C := False)).run hparams).1.eq_of_bot]
  | vetoRebind c =>
    exact Bindings.vetoRebind_keeps.frame (Runs.mapErr_iff.1 h) (hcontact _)
  | applyRebind c =>
    obtain ⟨a, t, happly, hensure⟩ := Runs.bind_iff.1 h
    rw [ensureAccount_frame hensure (haccount a)]
    exact Bindings.applyRebind_keeps.frame (Runs.mapErr_iff.1 happly) (hcontact _)
  | revokeContact c => exact Bindings.revoke_keeps.frame (Runs.mapErr_iff.1 h) (hcontact _)
  | _ => cases hm

theorem applyMessage_rules (hm : ∀ id, m ≠ .executeGovAction id) (h : Runs (applyMessage ctx sender m) s () s')
    {k : StoreKey} (hk : k = .council ∨ k = .params ∨ ∃ a, k = .attestor a) : s' k = s k := by
  have hdocket : k.isDocket = true → False := by
    rcases hk with rfl | rfl | ⟨a, rfl⟩ <;> exact nofun
  by_cases hcontact : Contacts.Concerns m
  · refine applyMessage_contact_frame hcontact h (fun c => ?_) fun a => ?_
    · rcases hk with rfl | rfl | ⟨b, rfl⟩ <;> exact nofun
    · rcases hk with rfl | rfl | ⟨b, rfl⟩ <;> exact nofun
  · cases m with
    | proposeGovAction action =>
      obtain ⟨_, t, hpropose, hdone⟩ := Runs.bind_iff.1 h
      obtain ⟨-, rfl⟩ := Runs.pure_iff.1 hdone
      exact (Governance.propose_keeps False.elim).frame (Runs.mapErr_iff.1 hpropose) hdocket
    | voteGovAction id =>
      obtain ⟨_, t, hvote, hdone⟩ := Runs.bind_iff.1 h
      obtain ⟨-, rfl⟩ := Runs.pure_iff.1 hdone
      exact (Governance.vote_keeps False.elim).frame (Runs.mapErr_iff.1 hvote) hdocket
    | executeGovAction id => exact (hm id rfl).elim
    | attestContact | requestRebind | vetoRebind | applyRebind | revokeContact => exact (hcontact trivial).elim
    | _ =>
      refine (applyMessage_keeps.run h).1.frame k (Message.not_mayWrite ?_)
      rcases hk with rfl | rfl | ⟨a, rfl⟩ <;> simp

/-- What only the council decides about changes by an action that is carried out, and then by that action. -/
theorem applyMessage_governed (h : Runs (applyMessage ctx sender m) s () s') :
    s'.governed = s.governed ∨ ∃ id p due, m = .executeGovAction id ∧ s.proposalAt id = some p ∧
      p.scheduledFor = some due ∧ due ≤ ctx.height ∧ s'.governed = s.governed.enact p.action := by
  by_cases hm : ∃ id, m = .executeGovAction id
  · obtain ⟨id, rfl⟩ := hm
    obtain ⟨action, t, hexecute, haction⟩ := Runs.bind_iff.1 h
    have hframe := ((Governance.execute_keeps (C := False)).run (Runs.mapErr_iff.1 hexecute)).1.frame
    obtain ⟨p, due, hp, hdue, hle, rfl, -⟩ := Governance.runs_execute (Runs.mapErr_iff.1 hexecute)
    have hsame : t.governed = s.governed := Store.governed_congr (hframe _ nofun) (hframe _ nofun)
      (fun _ => hframe _ nofun) fun _ => congrArg _ (Store.issuerOf_congr (hframe _ nofun))
    refine .inr ⟨id, p, due, rfl, hp, hdue, hle, ?_⟩
    rw [applyGovAction_governed haction, hsame]
  · have hrules : ∀ k : StoreKey, (k = .council ∨ k = .params ∨ ∃ a, k = .attestor a) → s' k = s k := fun k =>
      applyMessage_rules (fun id hid => hm ⟨id, hid⟩) h
    refine .inl (Store.governed_congr (hrules _ (.inl rfl)) (hrules _ (.inr (.inl rfl)))
      (fun a => hrules _ (.inr (.inr ⟨a, rfl⟩))) fun d => ?_)
    cases applyMessage_currency (d := d) h with
    | other _ hi _ => rw [hi]
    | mint hi _ hi' _ => rw [hi, hi']; rfl
    | configure _ hi _ _ hi' _ => rw [hi, hi']; rfl
    | accept hi _ hi' _ => rw [hi, hi']; rfl
    | admission _ _ _ => exact (hm ⟨_, rfl⟩).elim

theorem applyMessage_docket (h : Runs (applyMessage ctx sender m) s () s') (id : U64) :
    DocketStep ctx sender s id m (s'.proposalAt id) := by
  have hother : (∀ id, m ≠ .executeGovAction id) → .gov ∉ m.kinds →
      DocketStep ctx sender s id m (s'.proposalAt id) := by
    intro hm hnot
    have hsame : s'.proposalAt id = s.proposalAt id := Store.valueAt_congr
      ((applyMessage_keeps.run h).1.frame _ (Message.not_mayWrite hnot))
    rw [hsame]
    exact .kept (hm id)
  cases m with
  | proposeGovAction action =>
    obtain ⟨_, t, hpropose, hdone⟩ := Runs.bind_iff.1 h
    obtain ⟨-, rfl⟩ := Runs.pure_iff.1 hdone
    exact Governance.runs_propose (Runs.mapErr_iff.1 hpropose) id
  | voteGovAction voted =>
    obtain ⟨_, t, hvote, hdone⟩ := Runs.bind_iff.1 h
    obtain ⟨-, rfl⟩ := Runs.pure_iff.1 hdone
    exact Governance.runs_vote (Runs.mapErr_iff.1 hvote) id
  | executeGovAction executed =>
    obtain ⟨action, t, hexecute, haction⟩ := Runs.bind_iff.1 h
    obtain ⟨p, due, -, -, -, -, hdocket⟩ := Governance.runs_execute (Runs.mapErr_iff.1 hexecute)
    have hremoved : t.proposalAt = Function.update s.proposalAt executed none := congrArg Docket.record hdocket
    have hsame : s'.proposalAt id = t.proposalAt id := applyGovAction_proposalAt haction
    rw [hsame, hremoved]
    rcases eq_or_ne id executed with rfl | hne
    · rw [Function.update_self]
      exact .gone
    · rw [Function.update_of_ne hne]
      refine .kept fun heq => hne ?_
      cases heq
      rfl
  | _ => exact hother (fun _ => nofun) (by simp)

end Exec

/-! ## The rules along a run -/

omit [Crypto] in
theorem ChainParams.validateChangeFrom_eq_ok {p current : ChainParams} :
    p.validateChangeFrom current = .ok () ↔
      p.validate = .ok () ∧ p.maxCouncilCountryShareBps ≤ current.maxCouncilCountryShareBps := by
  unfold validateChangeFrom
  rw [Except.bind_eq_ok]
  simp only [Except.check_eq_ok, not_lt, exists_and_right]
  exact and_congr_left fun _ => ⟨fun ⟨_, h⟩ => h, fun h => ⟨(), h⟩⟩

omit [Crypto] in
theorem Store.chainParams_set {p : ChainParams} : (s.set .params p).chainParams = p := by
  have hread : (s.set .params p).getDecoded .params = .ok (some p) := getDecoded_eq_some.2 ⟨set_self, rfl⟩
  unfold chainParams
  rw [hread]

/-- What an event does to the parameters and to the council. -/
inductive RulesStep (s s' : Store) : List StoreEvent → Prop where
  | same {es : List StoreEvent} (hparams : s'.chainParams = s.chainParams) (hseated : s'.seatedCouncil = s.seatedCouncil) :
      RulesStep s s' es
  | params {es : List StoreEvent} (hvalid : s'.chainParams.validateChangeFrom s.chainParams = .ok ())
      (hcheck : ∀ c, s.seatedCouncil = some c →
        c.checkConcentration s'.chainParams.maxCouncilCountryShareBps = .ok ())
      (hseated : s'.seatedCouncil = s.seatedCouncil) : RulesStep s s' es
  | council {ctx : BlockContext} {sender : Address} {id : U64} {p : GovProposal} {c : Council}
      (hp : s.proposalAt id = some p) (haction : p.action = .setCouncil c)
      (hcheck : c.checkConcentration s.chainParams.maxCouncilCountryShareBps = .ok ())
      (hparams : s'.chainParams = s.chainParams) (hseated : s'.seatedCouncil = some c) :
      RulesStep s s' [.message ctx sender (.executeGovAction id)]

theorem Exec.applyMessage_rulesStep (h : Runs (applyMessage ctx sender m) s () s') :
    RulesStep s s' [.message ctx sender m] := by
  by_cases hm : ∃ id, m = .executeGovAction id
  · obtain ⟨id, rfl⟩ := hm
    obtain ⟨action, t, hexecute, haction⟩ := Runs.bind_iff.1 h
    have hframe := ((Governance.execute_keeps (C := False)).run (Runs.mapErr_iff.1 hexecute)).1.frame
    obtain ⟨p, due, hp, -, -, hpa, -⟩ := Governance.runs_execute (Runs.mapErr_iff.1 hexecute)
    have hparams : t.chainParams = s.chainParams := Store.chainParams_congr (hframe _ nofun)
    have hseated : t.seatedCouncil = s.seatedCouncil := Store.valueAt_congr (hframe _ nofun)
    have hother : (s' .params = t .params) → (s' .council = t .council) →
        RulesStep s s' [.message ctx sender (.executeGovAction id)] := fun hp hc =>
      .same ((Store.chainParams_congr hp).trans hparams) ((Store.valueAt_congr hc).trans hseated)
    cases action with
    | setCouncil c =>
      obtain ⟨hcheck, rfl⟩ := Governance.runs_setCouncil (Runs.mapErr_iff.1 haction)
      rw [hparams] at hcheck
      exact .council hp hpa hcheck ((Store.chainParams_congr (Store.set_of_ne (by nofun))).trans hparams)
        Store.valueAt_set_self
    | setParams q =>
      obtain ⟨hvalid, hcheck, rfl⟩ := Governance.runs_setParams (Runs.mapErr_iff.1 haction)
      rw [hparams] at hvalid
      rw [hseated] at hcheck
      refine .params ?_ ?_ ((Store.valueAt_set_of_ne (by nofun)).trans hseated)
      · rw [Store.chainParams_set]
        exact hvalid
      · rw [Store.chainParams_set]
        exact hcheck
    | licenseAttestor a r =>
      obtain ⟨_, t', hregister, hensure⟩ := Runs.bind_iff.1 haction
      obtain rfl := runs_setEncoded.1 (Runs.mapErr_iff.1 hregister)
      refine hother ?_ ?_
      · rw [ensureAccount_frame hensure (by nofun), Store.set_of_ne (by nofun)]
      · rw [ensureAccount_frame hensure (by nofun), Store.set_of_ne (by nofun)]
    | setAttestorActive a active =>
      have hsame := ((Bindings.setAttestorActive_keeps (C := False)).run (Runs.mapErr_iff.1 haction)).1.frame
      exact hother (hsame _ nofun) (hsame _ nofun)
    | admitDenom d authority =>
      obtain ⟨_, t', hadmit, hensure⟩ := Runs.bind_iff.1 haction
      obtain ⟨-, rfl⟩ := Bank.runs_admitIssuer (Runs.mapErr_iff.1 hadmit)
      refine hother ?_ ?_
      · rw [ensureAccount_frame hensure (by nofun), Store.set_of_ne (by nofun)]
      · rw [ensureAccount_frame hensure (by nofun), Store.set_of_ne (by nofun)]
    | cancel id => exact (Runs.throw_iff.1 haction).elim
  · have hm' : ∀ id, m ≠ .executeGovAction id := fun id hid => hm ⟨id, hid⟩
    exact .same (Store.chainParams_congr (applyMessage_rules hm' h (.inr (.inl rfl))))
      (Store.valueAt_congr (applyMessage_rules hm' h (.inl rfl)))

theorem Emits.rulesStep (h : Emits s es s') : RulesStep s s' es := by
  rcases h.quiet_or_message with hes | ⟨ctx, sender, m, rfl, hm⟩
  · exact .same (Store.chainParams_congr (h.frame hes nofun nofun)) (Store.valueAt_congr (h.frame hes nofun nofun))
  · exact Exec.applyMessage_rulesStep hm

/-- The parameters are valid and the council that is seated is within their cap. -/
structure Store.WellGoverned (s : Store) : Prop where
  valid : s.chainParams.validate = .ok ()
  seated : ∃ c, s.seatedCouncil = some c ∧ c.checkConcentration s.chainParams.maxCouncilCountryShareBps = .ok ()

omit [Crypto] in
theorem RulesStep.wellGoverned (h : RulesStep s s' es) (hs : s.WellGoverned) : s'.WellGoverned := by
  cases h with
  | same hparams hseated =>
    refine ⟨?_, ?_⟩
    · rw [hparams]
      exact hs.valid
    · rw [hparams, hseated]
      exact hs.seated
  | params hvalid hcheck hseated =>
    obtain ⟨c, hc, -⟩ := hs.seated
    exact ⟨(ChainParams.validateChangeFrom_eq_ok.1 hvalid).1, c, hseated.trans hc, hcheck c hc⟩
  | council _ _ hcheck hparams hseated =>
    refine ⟨?_, _, hseated, ?_⟩
    · rw [hparams]
      exact hs.valid
    · rw [hparams]
      exact hcheck

omit [Crypto] in
theorem RulesStep.cap_le (h : RulesStep s s' es) :
    s'.chainParams.maxCouncilCountryShareBps ≤ s.chainParams.maxCouncilCountryShareBps := by
  cases h with
  | same hparams _ => rw [hparams]
  | params hvalid _ _ => exact (ChainParams.validateChangeFrom_eq_ok.1 hvalid).2
  | council _ _ _ hparams _ => rw [hparams]

theorem Trace.cap_le (h : Trace Emits s es s') :
    s'.chainParams.maxCouncilCountryShareBps ≤ s.chainParams.maxCouncilCountryShareBps :=
  h.preserves (I := fun t => t.chainParams.maxCouncilCountryShareBps ≤ s.chainParams.maxCouncilCountryShareBps)
    (fun _ _ _ ht hstep => hstep.rulesStep.cap_le.trans ht) le_rfl

end

/-! ## Genesis -/

namespace Genesis

variable {g : Genesis} {limits : GenesisLimits} {s s' : Store}

theorem cap_le_of_validate (h : g.validate limits = .ok ()) :
    g.params.maxCouncilCountryShareBps ≤ limits.maxCouncilCountryShareBps := by
  unfold validate at h
  obtain ⟨-, h⟩ := Except.guard_eq_ok.1 h
  obtain ⟨-, h⟩ := Except.guard_eq_ok.1 h
  cases hissuer : g.allocations.find? fun a => a.denom.isSovereign && !g.issuers.any (·.1 == a.denom) with
  | some a =>
    rw [hissuer] at h
    cases h
  | none =>
    rw [hissuer] at h
    obtain ⟨-, h⟩ := Except.guard_eq_ok.1 h
    cases hactive : g.attestors.find? fun p => !p.2.active with
    | some p =>
      rw [hactive] at h
      cases h
    | none =>
      rw [hactive] at h
      obtain ⟨-, h⟩ := Except.guard_eq_ok.1 h
      obtain ⟨-, h⟩ := Except.guard_eq_ok.1 h
      cases hparams : g.params.validate with
      | error e =>
        rw [hparams] at h
        cases h
      | ok u =>
        rw [hparams] at h
        obtain ⟨hcap, -⟩ := Except.guard_eq_ok.1 h
        exact not_lt.1 hcap

theorem registerAttestors_frame {attestors : List (Address × Attestor)} (h : Runs (registerAttestors attestors) s () s')
    {k : StoreKey} (hk : ∀ a, k ≠ .attestor a) : s' k = s k := by
  induction attestors generalizing s with
  | nil =>
    obtain ⟨-, rfl⟩ := Runs.pure_iff.1 h
    rfl
  | cons p rest ih =>
    have hrest := runs_setEncoded_bind.1 h
    exact (ih hrest).trans (Store.set_of_ne (hk _))
theorem install_rules (h : Runs (g.install limits) s () s') :
    s'.chainParams = g.params ∧ s'.seatedCouncil = some g.council ∧ s'.WellGoverned ∧
      g.params.maxCouncilCountryShareBps ≤ limits.maxCouncilCountryShareBps := by
  obtain ⟨_, hvalid, hrest⟩ := Runs.lift h
  obtain ⟨_, s₁, -, hrest⟩ := Runs.bind_iff.1 hrest
  obtain ⟨_, s₂, -, hrest⟩ := Runs.bind_iff.1 hrest
  obtain ⟨_, s₃, hgov, hrest⟩ := Runs.bind_iff.1 hrest
  obtain ⟨_, s₄, hattestors, hopen⟩ := Runs.bind_iff.1 hrest
  obtain ⟨_, t, hfirst, hgov⟩ := Runs.bind_iff.1 (Runs.mapErr_iff.1 hgov)
  obtain ⟨hok, ht⟩ := Runs.liftResult_iff.1 hfirst
  obtain ⟨_, t', hcheck, hwrites⟩ := Runs.bind_iff.1 hgov
  obtain ⟨hconcentration, ht'⟩ := Runs.liftResult_iff.1 hcheck
  subst ht' ht
  have hset' := runs_setEncoded_bind.1 hwrites
  obtain rfl := runs_setEncoded.1 hset'
  have hframe : ∀ k : StoreKey, (∀ a, k ≠ .attestor a) → (∀ a, k ≠ .account a) →
      s' k = ((s₂.set .params g.params).set .council g.council) k := fun k ha hb =>
    (((openAccounts_keeps (C := True)).run hopen).1.frame k fun ⟨a, hk⟩ => hb a hk).trans
      (registerAttestors_frame hattestors ha)
  have hparams : s'.chainParams = g.params := by
    rw [Store.chainParams_congr (hframe .params nofun nofun), Store.chainParams_congr (Store.set_of_ne (by nofun)),
      Store.chainParams_set]
  have hseated : s'.seatedCouncil = some g.council :=
    (Store.valueAt_congr (hframe .council nofun nofun)).trans Store.valueAt_set_self
  refine ⟨hparams, hseated, ⟨?_, g.council, hseated, ?_⟩, cap_le_of_validate hvalid⟩
  · rw [hparams]
    exact hok
  · rw [hparams]
    exact hconcentration

end Genesis

end AfroLink
