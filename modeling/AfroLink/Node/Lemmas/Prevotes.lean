import AfroLink.Node.Lemmas.Moves

/-!
# Where prevotes come from

A prevote for a block answers the proposal the input put before the node, and the lock the node had when the
input came allowed it.
-/

namespace AfroLink

namespace Node

variable [Crypto]

theorem cast_broadcastVote {n : Node} {voteType : VoteType} {blockId : Option Hash32} {signed : SignedVote}
    (h : .broadcastVote signed ∈ (n.cast voteType blockId).2) : signed = n.ownVote voteType blockId := by
  rcases cast_cases n voteType blockId with ⟨_, _, -, hcast⟩ | ⟨_, -, -, hcast⟩
  · rw [hcast] at h
    cases h
  · rw [hcast] at h
    exact Action.broadcastVote.inj (List.mem_singleton.1 h)

theorem SameCore.ownVote_eq {n n' : Node} (h : SameCore n n') (voteType : VoteType) (blockId : Option Hash32) :
    n'.ownVote voteType blockId = n.ownVote voteType blockId := by
  obtain ⟨_, _, _, _, _, _, rfl⟩ := h
  rfl

variable [StateRoot] {n₀ n n' : Node} {i : Input} {as : List Action}

/-- The proposal a prevote for `blockId` answers. -/
structure Answers (n : Node) (i : Input) (blockId : Hash32) (signed : SignedProposal) : Prop where
  offered : n.offer i = some signed
  accepted : n.acceptsProposal signed.proposal = true
  valid : n.validateBlock signed.proposal.block = true
  blockId_eq : signed.proposal.blockId = blockId
  unlocked : n.roundState.lockedValue = none ∨ n.roundState.lockedValue = some blockId ∨
    ∃ lockedRound p, n.roundState.lockedRound = some lockedRound ∧ signed.proposal.validRound = some p ∧ lockedRound < p

theorem Move.answers {v : SignedVote} {blockId : Hash32} (h : Move n₀ i n as n') (hv : .broadcastVote v ∈ as)
    (htype : v.vote.voteType = .prevote) (hblock : v.vote.blockId = some blockId) :
    v = n₀.ownVote .prevote (some blockId) ∧ ∃ signed, n₀.Answers i blockId signed := by
  cases h with
  | quiet _ _ _ has => cases has _ hv
  | @prevote _ signed value hpre hoffer haccept hvalue =>
    have hown := cast_broadcastVote hv
    obtain rfl : value = some blockId := by rw [hown] at hblock; exact hblock
    obtain ⟨hvalid, rfl, hlock⟩ := RoundState.decidePrevote_eq_some hvalue
    refine ⟨?_, signed, hoffer, haccept, hvalid, rfl, hlock⟩
    rw [hown]
    exact hpre.ownVote_eq .prevote _
  | prevoteNil =>
    rw [cast_broadcastVote hv] at hblock
    cases hblock
  | precommitNil =>
    rw [cast_broadcastVote hv] at htype
    cases htype
  | receive => cases hv
  | lock =>
    rw [cast_broadcastVote hv] at htype
    cases htype
  | propose => simp at hv
  | nextRound => simp at hv
  | commit => simp at hv
  | sync => simp at hv

theorem step_answers {v : SignedVote} {blockId : Hash32} (hv : .broadcastVote v ∈ (n.step i).2)
    (htype : v.vote.voteType = .prevote) (hblock : v.vote.blockId = some blockId) :
    v = n.ownVote .prevote (some blockId) ∧ ∃ signed, n.Answers i blockId signed := by
  obtain ⟨_, _, _, hmove, hmem⟩ := (step_moves n i).exists_step_of_mem hv
  exact hmove.answers hmem htype hblock

omit [StateRoot] in
theorem acceptsProposal_iff {p : Proposal} :
    n.acceptsProposal p = true ↔ n.decided = false ∧ p.height = n.height ∧ p.round = n.round ∧
      (∃ proposer, n.validators.proposer n.height p.round = some proposer ∧ proposer.address = p.proposer) ∧
      p.chainId = n.chainId := by
  simp [acceptsProposal, Option.any_eq_true, and_assoc]

end Node

end AfroLink
