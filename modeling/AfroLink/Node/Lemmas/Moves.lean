import AfroLink.Base.Trace
import AfroLink.Node.Lemmas.Blocks

/-!
# The moves of a node

Every input is handled by a sequence of a few kinds of move, each of which casts at most one vote. A move also
says what its state has to do with the node the input came to, so that a condition on that node can be used
at the move. What the moves keep, every handler keeps.
-/

open Std

namespace AfroLink

def Action.isQuiet : Action → Bool
  | .broadcastTransaction _ | .scheduleTimeout .. => true
  | _ => false

def Action.isCommitted : Action → Bool
  | .committed .. => true
  | _ => false

namespace Node

/-- `n'` differs from `n` in nothing a consensus rule reads. -/
def SameCore (n n' : Node) : Prop :=
  ∃ waits signing reported refusals begun mempool,
    n' = { n with waits, signing, reported, refusals, begun, mempool }

theorem SameCore.refl (n : Node) : SameCore n n :=
  ⟨n.waits, n.signing, n.reported, n.refusals, n.begun, n.mempool, rfl⟩

def atStep (n : Node) (step : Step) : Node := { n with roundState := { n.roundState with step } }

def locked (n : Node) (quorum : Option Hash32) : Node :=
  { n with roundState := (n.roundState.decidePrecommit (some quorum)).1 }

def adopt (n : Node) (signed : SignedProposal) : Node :=
  { n with proposals := n.proposals.insert signed.proposal.round signed
           roundState := { n.roundState with step := .prevote } }

variable [Crypto]

def filed (n : Node) (signed : SignedVote) : Node := if n.decided then n else (n.fileVote signed).1

/-- Claim, sign and file a vote of one's own, without what it leads to. -/
def cast (n : Node) (voteType : VoteType) (blockId : Option Hash32) : Node × List Action :=
  emitVoteThen (fun n signed => (n.filed signed, [])) n voteType blockId

variable [StateRoot]

def offer (n : Node) : Input → Option SignedProposal
  | .event (.proposal signed) => some signed
  | .start time => some (n.ownProposal time)
  | _ => none

/-- The input asks the node to prevote `value`: the wait for a proposal is over, or there is one. -/
def Prompts (n : Node) (i : Input) (value : Option Hash32) : Prop :=
  i = .event (.timeout .propose) ∧ value = none ∨
  ∃ signed, n.offer i = some signed ∧ n.acceptsProposal signed.proposal = true ∧
    n.roundState.decidePrevote (some signed.proposal.blockId) signed.proposal.validRound
      (n.validateBlock signed.proposal.block) = .prevote value

/-- The vote an input leads the node to file: the one that arrives, or its own answer. -/
def Files (n : Node) (i : Input) (signed : SignedVote) : Prop :=
  i = .event (.vote signed) ∨ ∃ value, n.Prompts i value ∧ signed = n.ownVote .prevote value

/-- `n` has the prevotes of `n₀` and the one that `i` brings; locks and round are those of `n₀`. -/
def FiledPrevote (n₀ : Node) (i : Input) (n : Node) : Prop :=
  ∃ signed, n₀.Files i signed ∧ n.prevotes = (n₀.fileVote signed).1.prevotes ∧ n.validators = n₀.validators ∧
    n.roundState = { n₀.roundState with step := n.roundState.step } ∧ n.height = n₀.height

inductive Move (n₀ : Node) (i : Input) : Node → List Action → Node → Prop where
  | quiet {n n' : Node} {as : List Action} (h : SameCore n n') (hl : n'.signing.last = n.signing.last)
      (hd : n.signing.Durable → n'.signing.Durable) (has : ∀ a ∈ as, a.isQuiet = true) : Move n₀ i n as n'
  | prevote {n : Node} {signed : SignedProposal} {value : Option Hash32} (hpre : SameCore n₀ n)
      (hoffer : n₀.offer i = some signed) (haccept : n₀.acceptsProposal signed.proposal = true)
      (hvalue : n₀.roundState.decidePrevote (some signed.proposal.blockId) signed.proposal.validRound
        (n₀.validateBlock signed.proposal.block) = .prevote value) :
      Move n₀ i n ((n.adopt signed).cast .prevote value).2 ((n.adopt signed).cast .prevote value).1
  | prevoteNil {n : Node} (hi : i = .event (.timeout .propose)) (hpre : SameCore n₀ n) :
      Move n₀ i n ((n.atStep .prevote).cast .prevote none).2 ((n.atStep .prevote).cast .prevote none).1
  | precommitNil {n : Node} :
      Move n₀ i n ((n.atStep .precommit).cast .precommit none).2 ((n.atStep .precommit).cast .precommit none).1
  | receive {signed : SignedVote} (hi : i = .event (.vote signed)) (hd : n₀.decided = false)
      (hh : signed.vote.height = n₀.height) : Move n₀ i n₀ [] (n₀.fileVote signed).1
  | lock {n : Node} {quorum : Option Hash32} (hpre : FiledPrevote n₀ i n) (hs : n.roundState.step ≠ .precommit)
      (hq : n.quorumAt .prevote n.round = some quorum) :
      Move n₀ i n ((n.locked quorum).cast .precommit quorum).2 ((n.locked quorum).cast .precommit quorum).1
  | propose {n : Node} {time : Timestamp} {signing : SignRecord} (hi : i = .start time)
      (hc : n.signing.claim ⟨n.height, n.round, .propose⟩ = (signing, .ok ())) :
      Move n₀ i n [.broadcastProposal (n.ownProposal time)] { n with signing }
  | nextRound {n : Node} :
      Move n₀ i n [.startRound n.round.next] { n with roundState := n.roundState.advanceTo n.round.next }
  | commit {n : Node} {blockId : Hash32} {signed : SignedProposal}
      (hq : n.quorumAt .precommit n.round = some (some blockId)) (hfor : n.proposalFor blockId = some signed) :
      Move n₀ i n [.committed signed.proposal.block (n.certificate blockId)]
        (n.retired signed.proposal.block (n.certificate blockId))
  | sync {block : Block} {certificate : Commit} (hi : i = .sync block certificate)
      (hb : n₀.validateBlock block = true) (hc : n₀.Certifies block certificate) :
      Move n₀ i n₀ [.committed block certificate] (n₀.retired block certificate)

/-- Moves one after the other. A block is committed by the last one only. -/
inductive Handled (n₀ : Node) (i : Input) : Node → List Action → Node → Prop where
  | nil (n : Node) : Handled n₀ i n [] n
  | last {n n' : Node} {as : List Action} (h : Move n₀ i n as n') : Handled n₀ i n as n'
  | cons {n m n' : Node} {as bs : List Action} (h : Move n₀ i n as m) (hmore : ∀ a ∈ as, a.isCommitted = false)
      (hrest : Handled n₀ i m bs n') : Handled n₀ i n (as ++ bs) n'

/-! ## Filing a vote -/

omit [StateRoot] in
def tallied (n : Node) (signed : SignedVote) : VoteSet :=
  match (n.voteSetAt signed.vote.voteType signed.vote.round).add n.validators signed with
  | .error _ => n.voteSetAt signed.vote.voteType signed.vote.round
  | .ok (set, _) => set

omit [StateRoot] in
theorem fileVote_fst (n : Node) (signed : SignedVote) :
    (n.fileVote signed).1 = n.withVoteSets
      ((n.voteSets signed.vote.voteType).insert signed.vote.round (n.tallied signed)) signed.vote.voteType := by
  simp only [fileVote, tallied]
  cases (n.voteSetAt signed.vote.voteType signed.vote.round).add n.validators signed with
  | error e => rfl
  | ok r => rfl

variable {β : Type} {n n' : Node} {signed : SignedVote} {value : Option Hash32} {C : Node → Input → Prop}

omit [StateRoot] in
theorem fileVote_proj (f : Node → β) (n : Node) (signed : SignedVote)
    (hf : ∀ prevotes precommits, f { n with prevotes, precommits } = f n) : f (n.fileVote signed).1 = f n := by
  rw [fileVote_fst]
  cases signed.vote.voteType with
  | prevote => exact hf _ n.precommits
  | precommit => exact hf n.prevotes _

omit [StateRoot] in
theorem filed_proj (f : Node → β) (n : Node) (signed : SignedVote)
    (hf : ∀ prevotes precommits, f { n with prevotes, precommits } = f n) : f (n.filed signed) = f n := by
  unfold filed
  split
  · rfl
  · exact fileVote_proj f n signed hf

/-! ## Casting -/

omit [StateRoot] in
/-- A vote is refused by the record, or the record moves to the vote's point and the vote goes out and is filed. -/
theorem cast_cases (n : Node) (voteType : VoteType) (blockId : Option Hash32) :
    (∃ signing refused, signing.last = n.signing.last ∧
      n.cast voteType blockId = ({ n with signing, refusals := n.refusals ++ [refused] }, [])) ∨
    ∃ signing : SignRecord, n.signing.Past ⟨n.height, n.round, voteType.step⟩ ∧
      signing.last = some ⟨n.height, n.round, voteType.step⟩ ∧
      n.cast voteType blockId =
        (filed { n with signing } (n.ownVote voteType blockId), [.broadcastVote (n.ownVote voteType blockId)]) := by
  unfold cast emitVoteThen
  rcases n.signing.claim_cases ⟨n.height, n.round, voteType.step⟩ with ⟨signing, h, hpast, hlast⟩ | ⟨signing, e, h, hlast⟩
  · refine .inr ⟨signing, hpast, hlast, ?_⟩
    rw [h]
  · refine .inl ⟨signing, e, hlast, ?_⟩
    rw [h]

omit [StateRoot] in
theorem cast_proj (f : Node → β) (n : Node) (voteType : VoteType) (blockId : Option Hash32)
    (hf : ∀ (m : Node) signing refusals prevotes precommits,
      f { m with signing, refusals, prevotes, precommits } = f m) : f (n.cast voteType blockId).1 = f n := by
  rcases cast_cases n voteType blockId with ⟨signing, refused, -, h⟩ | ⟨signing, -, -, h⟩
  · rw [h]
    exact hf n signing _ n.prevotes n.precommits
  · rw [h, filed_proj f _ _ fun prevotes precommits => ?_]
    · exact hf n signing n.refusals n.prevotes n.precommits
    · exact hf { n with signing } signing n.refusals prevotes precommits

omit [Crypto] [StateRoot] in
theorem isCommitted_of_isQuiet {a : Action} (h : a.isQuiet = true) : a.isCommitted = false := by
  cases a <;> first | rfl | cases h

omit [StateRoot] in
theorem cast_not_committed (n : Node) (voteType : VoteType) (blockId : Option Hash32) :
    ∀ a ∈ (n.cast voteType blockId).2, a.isCommitted = false := by
  obtain ⟨_, _, -, h⟩ | ⟨_, -, -, h⟩ := cast_cases n voteType blockId
  · simp [h]
  · simp [h, Action.isCommitted]

/-! ## Quiet handlers -/

omit [StateRoot] in
theorem submitAndRelay_quiet (n : Node) (t : Transaction) :
    SameCore n (n.submitAndRelay t).1 ∧ (n.submitAndRelay t).1.signing = n.signing ∧
      ∀ a ∈ (n.submitAndRelay t).2, a.isQuiet = true := by
  simp only [submitAndRelay, submit]
  cases n.mempool.insert t n.chainId n.height (Exec.readOrFresh n.store t.body.sender)
      (t.body.fee.payer.map (Exec.readOrFresh n.store)) with
  | error e => exact ⟨.refl n, rfl, by simp⟩
  | ok r =>
    refine ⟨⟨n.waits, n.signing, n.reported, n.refusals, n.begun, r.1, rfl⟩, rfl, ?_⟩
    simp [Action.isQuiet]

omit [Crypto] [StateRoot] in
theorem SameCore.trans {n'' : Node} (h : SameCore n n') (h' : SameCore n' n'') : SameCore n n'' := by
  obtain ⟨_, _, _, _, _, _, rfl⟩ := h
  obtain ⟨waits, signing, reported, refusals, begun, mempool, rfl⟩ := h'
  exact ⟨waits, signing, reported, refusals, begun, mempool, rfl⟩

omit [StateRoot] in
theorem reportEquivocation_quiet (n : Node) (evidence : Equivocation) :
    SameCore n (n.reportEquivocation evidence).1 ∧ (n.reportEquivocation evidence).1.signing = n.signing ∧
      ∀ a ∈ (n.reportEquivocation evidence).2, a.isQuiet = true := by
  unfold reportEquivocation
  split
  · exact ⟨.refl n, rfl, by simp⟩
  · obtain ⟨hcore, hsign, hacts⟩ := submitAndRelay_quiet
      { n with reported := insert evidence.validator n.reported } _
    refine ⟨SameCore.trans ?_ hcore, hsign, hacts⟩
    exact ⟨n.waits, n.signing, insert evidence.validator n.reported, n.refusals, n.begun, n.mempool, rfl⟩

omit [Crypto] [StateRoot] in
theorem arm_quiet (n : Node) (round : Round) (step : Step) (when_ : Bool) :
    SameCore n (n.arm round step when_).1 ∧ (n.arm round step when_).1.signing = n.signing ∧
      ∀ a ∈ (n.arm round step when_).2, a.isQuiet = true := by
  unfold arm
  split
  · exact ⟨.refl n, rfl, by simp⟩
  · refine ⟨⟨insert (round, step) n.waits, n.signing, n.reported, n.refusals, n.begun, n.mempool, rfl⟩, rfl, ?_⟩
    simp [Action.isQuiet]

variable {n₀ : Node} {i : Input}

theorem Move.of_quiet {r : Node × List Action}
    (h : SameCore n r.1 ∧ r.1.signing = n.signing ∧ ∀ a ∈ r.2, a.isQuiet = true) : Move n₀ i n r.2 r.1 :=
  .quiet h.1 (by rw [h.2.1]) (by rw [h.2.1]; exact id) h.2.2

theorem Handled.trace {as : List Action} (h : Handled n₀ i n as n') : Trace (Move n₀ i) n as n' := by
  induction h with
  | nil n => exact .nil n
  | last h => exact .single h
  | cons h _ _ ih => exact .cons h ih

/-! ## Handlers as sequences of moves -/

theorem checkPrecommitQuorum_moves (n₀ : Node) (i : Input) (n : Node) :
    Handled n₀ i n n.checkPrecommitQuorum.2 n.checkPrecommitQuorum.1 := by
  cases hq : n.quorumAt .precommit n.round with
  | none =>
    simp only [checkPrecommitQuorum, hq]
    exact .last (.of_quiet (arm_quiet n _ _ _))
  | some quorum =>
    cases quorum with
    | none =>
      simp only [checkPrecommitQuorum, hq]
      exact .last .nextRound
    | some blockId =>
      rw [checkPrecommitQuorum_of_quorum hq]
      cases hfor : n.proposalFor blockId with
      | none =>
        rw [commit_of_missing hfor]
        exact .nil n
      | some signed =>
        rw [commit_of_stored hfor]
        exact .last (.commit hq hfor)

theorem followUp_moves {check : Node → Node × List Action} {round : Round} {outcome : Option VoteOutcome}
    (hcheck : ∀ m, SameCore n m → Handled n₀ i m (check m).2 (check m).1) :
    Handled n₀ i n (n.followUp check round outcome).2 (n.followUp check round outcome).1 := by
  have hquiet : ∀ r : Node × List Action,
      (SameCore n r.1 ∧ r.1.signing = n.signing ∧ ∀ a ∈ r.2, a.isQuiet = true) →
      Handled n₀ i n
        (if round ≠ r.1.round then (r.1, []) else ((check r.1).1, r.2 ++ (check r.1).2)).2
        (if round ≠ r.1.round then (r.1, []) else ((check r.1).1, r.2 ++ (check r.1).2)).1 := by
    intro r hr
    split
    · exact .last (.quiet hr.1 (by rw [hr.2.1]) (by rw [hr.2.1]; exact id) (by simp))
    · exact .cons (.of_quiet hr) (fun a ha => isCommitted_of_isQuiet (hr.2.2 a ha)) (hcheck r.1 hr.1)
  cases outcome with
  | none => exact .nil n
  | some outcome =>
    cases outcome with
    | added => exact hquiet (n, []) ⟨.refl n, rfl, by simp⟩
    | duplicate => exact hquiet (n, []) ⟨.refl n, rfl, by simp⟩
    | equivocated evidence => exact hquiet (n.reportEquivocation evidence) (reportEquivocation_quiet n evidence)

omit [StateRoot] in
theorem emitVoteThen_cases (check : Node → Node × List Action) (n : Node) (voteType : VoteType)
    (blockId : Option Hash32) :
    emitVoteThen (onVoteThen check) n voteType blockId = n.cast voteType blockId ∨
    ∃ outcome signing, n.decided = false ∧
      (n.cast voteType blockId).1 = (fileVote { n with signing } (n.ownVote voteType blockId)).1 ∧
      emitVoteThen (onVoteThen check) n voteType blockId =
        ((followUp check (n.cast voteType blockId).1 n.round outcome).1,
          (n.cast voteType blockId).2 ++ (followUp check (n.cast voteType blockId).1 n.round outcome).2) := by
  unfold cast emitVoteThen
  rcases hc : n.signing.claim ⟨n.height, n.round, voteType.step⟩ with ⟨signing, _ | _⟩
  · exact .inl rfl
  · by_cases hd : n.decided = true
    · left
      simp [onVoteThen, hd, filed]
    · right
      refine ⟨(fileVote { n with signing } (n.ownVote voteType blockId)).2, signing, by simpa using hd, ?_, ?_⟩
      · simp [hd, filed]
      · simp [onVoteThen, hd, filed, ownVote, Vote.sign]

theorem emitVoteThen_moves (check : Node → Node × List Action) {s : Node} {voteType : VoteType}
    {blockId : Option Hash32} (hcast : Move n₀ i s (n.cast voteType blockId).2 (n.cast voteType blockId).1)
    (hcheck : ∀ m signing, SameCore (fileVote { n with signing } (n.ownVote voteType blockId)).1 m →
      Handled n₀ i m (check m).2 (check m).1) :
    Handled n₀ i s (emitVoteThen (onVoteThen check) n voteType blockId).2
      (emitVoteThen (onVoteThen check) n voteType blockId).1 := by
  rcases emitVoteThen_cases check n voteType blockId with h | ⟨outcome, signing, -, hfile, h⟩
  · rw [h]
    exact .last hcast
  · rw [h]
    refine .cons hcast (cast_not_committed n voteType blockId) (followUp_moves fun m hm => hcheck m signing ?_)
    rwa [hfile] at hm

theorem FiledPrevote.sameCore {m : Node} (h : FiledPrevote n₀ i n) (hm : SameCore n m) : FiledPrevote n₀ i m := by
  obtain ⟨_, _, _, _, _, _, rfl⟩ := hm
  exact h

theorem checkPrevoteQuorum_moves (h : FiledPrevote n₀ i n) :
    Handled n₀ i n n.checkPrevoteQuorum.2 n.checkPrevoteQuorum.1 := by
  unfold checkPrevoteQuorum
  split
  · exact .nil n
  · rename_i hs
    cases hq : n.quorumAt .prevote n.round with
    | none => exact .last (.of_quiet (arm_quiet n _ _ _))
    | some quorum =>
      have hlock := Move.lock h hs hq
      cases quorum with
      | none => exact emitVoteThen_moves checkPrecommitQuorum hlock fun m _ _ => checkPrecommitQuorum_moves n₀ i m
      | some value => exact emitVoteThen_moves checkPrecommitQuorum hlock fun m _ _ => checkPrecommitQuorum_moves n₀ i m

theorem onPrecommit_moves (hi : i = .event (.vote signed)) :
    Handled n₀ i n₀ (n₀.onPrecommit signed).2 (n₀.onPrecommit signed).1 := by
  unfold onPrecommit onVoteThen
  split
  · exact .nil n₀
  · rename_i hg
    simp only [not_or, not_not, Bool.not_eq_true] at hg
    exact .cons (.receive hi hg.1 hg.2) (by simp) (followUp_moves fun m _ => checkPrecommitQuorum_moves n₀ i m)

theorem onPrevote_moves (hi : i = .event (.vote signed)) :
    Handled n₀ i n₀ (n₀.onPrevote signed).2 (n₀.onPrevote signed).1 := by
  unfold onPrevote onVoteThen
  split
  · exact .nil n₀
  · rename_i hg
    simp only [not_or, not_not, Bool.not_eq_true] at hg
    refine .cons (.receive hi hg.1 hg.2) (by simp) (followUp_moves fun m hm => checkPrevoteQuorum_moves ?_)
    refine FiledPrevote.sameCore ⟨signed, .inl hi, rfl, ?_, ?_, ?_⟩ hm
    · exact fileVote_proj (·.validators) n₀ signed fun _ _ => rfl
    · rw [fileVote_proj (·.roundState) n₀ signed fun _ _ => rfl]
    · exact fileVote_proj (·.height) n₀ signed fun _ _ => rfl

theorem onVote_moves (hi : i = .event (.vote signed)) :
    Handled n₀ i n₀ (n₀.onVote signed).2 (n₀.onVote signed).1 := by
  unfold onVote
  split
  · exact onPrevote_moves hi
  · exact onPrecommit_moves hi

theorem filedPrevote_own {m : Node} {signing : SignRecord} (hprompt : n₀.Prompts i value)
    (hn : ∃ proposals step signing reported refusals begun mempool waits,
      n = { n₀ with proposals, signing, reported, refusals, begun, mempool, waits,
                    roundState := { n₀.roundState with step } })
    (hm : SameCore (fileVote { n with signing } (n.ownVote .prevote value)).1 m) : FiledPrevote n₀ i m := by
  obtain ⟨proposals, step, _, _, _, _, _, _, rfl⟩ := hn
  refine FiledPrevote.sameCore ⟨n₀.ownVote .prevote value, .inr ⟨value, hprompt, rfl⟩, ?_, ?_, ?_, ?_⟩ hm
  · simp only [fileVote_fst]
    rfl
  · exact fileVote_proj (·.validators) _ _ fun _ _ => rfl
  · rw [fileVote_proj (·.roundState) _ _ fun _ _ => rfl]
  · exact fileVote_proj (·.height) _ _ fun _ _ => rfl

theorem emitVote_moves {s : Node} {voteType : VoteType}
    (hcast : Move n₀ i s (n.cast voteType value).2 (n.cast voteType value).1)
    (hn : voteType = .prevote → n₀.Prompts i value ∧ ∃ proposals step signing reported refusals begun mempool waits,
      n = { n₀ with proposals, signing, reported, refusals, begun, mempool, waits,
                    roundState := { n₀.roundState with step } }) :
    Handled n₀ i s (n.emitVote voteType value).2 (n.emitVote voteType value).1 := by
  cases voteType with
  | prevote =>
    exact emitVoteThen_moves checkPrevoteQuorum hcast fun m signing hm =>
      checkPrevoteQuorum_moves (filedPrevote_own (hn rfl).1 (hn rfl).2 hm)
  | precommit =>
    exact emitVoteThen_moves checkPrecommitQuorum hcast fun m _ _ => checkPrecommitQuorum_moves n₀ i m

theorem onProposal_of_accepts {signed : SignedProposal} (haccept : n.acceptsProposal signed.proposal = true)
    (hvalue : n.roundState.decidePrevote (some signed.proposal.blockId) signed.proposal.validRound
      (n.validateBlock signed.proposal.block) = .prevote value) :
    n.onProposal signed = (n.adopt signed).emitVote .prevote value := by
  simp [onProposal, haccept, hvalue, adopt]

theorem onProposal_of_not_accepts {signed : SignedProposal}
    (haccept : ¬ n.acceptsProposal signed.proposal = true) : n.onProposal signed = (n, []) := by
  simp [onProposal, haccept]

theorem onProposal_moves {signed : SignedProposal} (hn : SameCore n₀ n) (hoffer : n₀.offer i = some signed) :
    Handled n₀ i n (n.onProposal signed).2 (n.onProposal signed).1 := by
  have hcore := hn
  obtain ⟨waits, signing, reported, refusals, begun, mempool, hn⟩ := hn
  obtain ⟨value, hvalue⟩ := n₀.roundState.decidePrevote_eq signed.proposal.blockId signed.proposal.validRound
    (n₀.validateBlock signed.proposal.block)
  by_cases haccept : n₀.acceptsProposal signed.proposal = true
  · have hemit := emitVote_moves (.prevote hcore hoffer haccept hvalue)
      fun _ => ⟨.inr ⟨signed, hoffer, haccept, hvalue⟩, _, _, _, _, _, _, _, _, congrArg (·.adopt signed) hn⟩
    have haccept' : n.acceptsProposal signed.proposal = true := by
      rw [hn]
      exact haccept
    rw [onProposal_of_accepts haccept' (by rw [hn]; exact hvalue)]
    exact hemit
  · rw [onProposal_of_not_accepts (by rw [hn]; exact haccept)]
    exact .nil n

theorem onTimeout_moves (n : Node) (step : Step) :
    Handled n (.event (.timeout step)) n (n.onTimeout step).2 (n.onTimeout step).1 := by
  unfold onTimeout
  split
  · exact emitVote_moves (.prevoteNil rfl (.refl n)) fun _ => ⟨.inl ⟨rfl, rfl⟩, _, _, _, _, _, _, _, _, rfl⟩
  · exact emitVote_moves .precommitNil nofun
  · exact .last .nextRound
  · exact .nil n

theorem handle_moves (n : Node) (e : Event) : Handled n (.event e) n (n.handle e).2 (n.handle e).1 := by
  cases e with
  | proposal signed => exact onProposal_moves (.refl n) rfl
  | vote signed => exact onVote_moves rfl
  | transaction t => exact .last (.of_quiet (submitAndRelay_quiet n t))
  | timeout step => exact onTimeout_moves n step

theorem startRound_moves (n : Node) (time : Timestamp) :
    Handled n (.start time) n (n.startRound time).2 (n.startRound time).1 := by
  unfold startRound
  simp only
  split
  · exact .nil n
  · -- the round is marked begun before anything else
    have hbegun : SameCore n { n with begun := some (n.height, n.round) } :=
      ⟨n.waits, n.signing, n.reported, n.refusals, _, n.mempool, rfl⟩
    split
    · rcases hc : n.signing.claim ⟨n.height, n.round, .propose⟩ with ⟨signing, refused | _⟩
      · have hlast : signing.last = n.signing.last := by
          rcases n.signing.claim_cases ⟨n.height, n.round, .propose⟩ with ⟨r, h, -⟩ | ⟨r, e, h, hl⟩
          · simp [hc] at h
          · rw [hc] at h
            cases h
            exact hl
        have hdurable : n.signing.Durable → signing.Durable := fun h => by
          have := (h.claim ⟨n.height, n.round, .propose⟩).1
          rwa [hc] at this
        exact .last (.quiet ⟨n.waits, signing, n.reported, n.refusals ++ [refused], _, n.mempool, rfl⟩ hlast
          hdurable (by simp [Action.isQuiet]))
      · have hmark : Move n (.start time) n [] { n with begun := some (n.height, n.round) } :=
          .quiet hbegun rfl id (by simp)
        have hpropose : Move n (.start time) { n with begun := some (n.height, n.round) }
            [.broadcastProposal (n.ownProposal time)] { n with begun := some (n.height, n.round), signing } :=
          .propose rfl hc
        have hown : Handled n (.start time) { n with begun := some (n.height, n.round), signing } _ _ :=
          onProposal_moves ⟨n.waits, signing, n.reported, n.refusals, _, n.mempool, rfl⟩ rfl
        exact .cons hmark (by simp) (.cons hpropose (by simp [Action.isCommitted]) hown)
    · exact .last (.quiet hbegun rfl id (by simp [Action.isQuiet]))

theorem step_handled (n : Node) (i : Input) : Handled n i n (n.step i).2 (n.step i).1 := by
  cases i with
  | event e => exact handle_moves n e
  | start time => exact startRound_moves n time
  | sync block certificate =>
    rcases applySynced_cases n block certificate with ⟨e, h⟩ | ⟨hb, hc⟩
    · simp only [step, h]
      exact .nil n
    · simp only [step, applySynced_of_certified hb hc]
      exact .last (.sync rfl hb hc)

theorem step_moves (n : Node) (i : Input) : Trace (Move n i) n (n.step i).2 (n.step i).1 := (step_handled n i).trace

/-! ## Runs -/

def config (n : Node) : ChainId × SecretKey × ValidatorSet := (n.chainId, n.key, n.validators)

theorem Move.config_eq {as : List Action} (h : Move n₀ i n as n') : n'.config = n.config := by
  cases h with
  | quiet hcore =>
    obtain ⟨_, _, _, _, _, _, rfl⟩ := hcore
    rfl
  | prevote => exact cast_proj config _ _ _ fun _ _ _ _ _ => rfl
  | prevoteNil => exact cast_proj config _ _ _ fun _ _ _ _ _ => rfl
  | precommitNil => exact cast_proj config _ _ _ fun _ _ _ _ _ => rfl
  | receive => exact fileVote_proj config _ _ fun _ _ => rfl
  | lock => exact cast_proj config _ _ _ fun _ _ _ _ _ => rfl
  | propose => rfl
  | nextRound => rfl
  | commit => rfl
  | sync => rfl

theorem step_config (n : Node) (i : Input) : (n.step i).1.config = n.config :=
  (step_moves n i).preserves (I := fun m => m.config = n.config) (fun _ _ _ h hmove => hmove.config_eq.trans h) rfl

/-- A step whose input meets the condition `C` at the node it comes to. -/
def StepsWhen (C : Node → Input → Prop) (n : Node) (as : List Action) (n' : Node) : Prop :=
  ∃ i, C n i ∧ n.step i = (n', as)

theorem StepsWhen.of_step {i : Input} (h : C n i) : StepsWhen C n (n.step i).2 (n.step i).1 :=
  ⟨i, h, rfl⟩

/-- Every input of a run meets the condition where it arrives. -/
def AllMeet (C : Node → Input → Prop) : Node → List Input → Prop
  | _, [] => True
  | n, i :: rest => C n i ∧ AllMeet C (n.step i).1 rest

theorem run_trace {inputs : List Input} (h : AllMeet C n inputs) :
    Trace (StepsWhen C) n (n.run inputs).2 (n.run inputs).1 := by
  induction inputs generalizing n with
  | nil => exact .nil n
  | cons i rest ih => exact .cons (.of_step h.1) (ih h.2)

theorem run_config {hist : List Action} (h : Trace (StepsWhen C) n hist n') : n'.config = n.config := by
  refine h.preserves (I := fun m => m.config = n.config) ?_ rfl
  rintro m as m' hm ⟨i, -, hstep⟩
  have hconfig := m.step_config i
  rw [hstep] at hconfig
  exact hconfig.trans hm

end Node

end AfroLink
