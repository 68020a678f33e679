import AfroLink.Node.Lemmas.Locks
import AfroLink.Node.Lemmas.Signing
import AfroLink.Node.Theorems.Blocks

/-!
# The lock

After a precommit, another block is prevoted in a later round only with a quorum for it in between.
-/

namespace AfroLink

theorem lock_discipline [Crypto] [StateRoot] {n₀ n : Node} {hist : List Action}
    (hrun : Trace (Node.StepsWhen Node.LockRespected) n₀ hist n) (hheight : Node.InOneHeight hist)
    (hfresh : n₀.roundState = RoundState.new n₀.height) (hdurable : n₀.signing.Durable)
    {i : Node.Input} (hi : n.LockRespected i) {precommit prevote : SignedVote} {v w : Hash32}
    (hprecommit : .broadcastVote precommit ∈ hist) (hprecommit_type : precommit.vote.voteType = .precommit)
    (hprecommit_block : precommit.vote.blockId = some v)
    (hprevote : .broadcastVote prevote ∈ (n.step i).2) (hprevote_type : prevote.vote.voteType = .prevote)
    (hprevote_block : prevote.vote.blockId = some w) (hne : w ≠ v)
    (hlater : precommit.vote.round < prevote.vote.round) :
    ∃ round, precommit.vote.round < round ∧ round < prevote.vote.round ∧
      n.quorumAt .prevote round = some (some w) := by
  have hkept : n.LockKept hist := Node.run_lockKept hrun hheight hdurable (by rw [hfresh]; rfl)
  obtain ⟨u, lr, hu, hlr, hle, hsame⟩ := hkept.covers precommit v hprecommit hprecommit_type hprecommit_block
  have hpast := Node.step_signs_past hprevote rfl
  obtain ⟨rfl, signed, hanswers⟩ := Node.step_answers hprevote hprevote_type hprevote_block
  by_cases huw : u = w
  · -- the lock has moved on to `w`, on the node's own quorum
    subst huw
    have hlt : precommit.vote.round < lr := lt_of_le_of_ne hle fun heq => hne (hsame heq)
    have hbefore : lr < n.round := by
      refine lt_of_le_of_ne (hkept.round_le lr hlr) fun heq => ?_
      exact hkept.not_past (hlr.trans (congrArg some heq)) .prevote hpast
    exact ⟨lr, hlt, hbefore, hkept.backed u lr hu hlr⟩
  · -- the proposal's valid round released the lock
    rcases hanswers.unlocked with hnone | hsome | ⟨lr', p, hlr', hp, hgt⟩
    · rw [hu] at hnone
      cases hnone
    · rw [hu] at hsome
      exact absurd (Option.some.inj hsome) huw
    · obtain rfl : lr = lr' := Option.some.inj (hlr.symm.trans hlr')
      obtain ⟨hround, hquorum⟩ := hi.justified signed p u lr hanswers.offered hanswers.accepted hanswers.valid hp hu
        hlr (hanswers.blockId_eq ▸ huw) hgt
      rw [hanswers.blockId_eq] at hquorum
      exact ⟨p, hle.trans_lt hgt, hround, hquorum⟩

namespace Sample

def outweighed : ValidatorSet where
  validators := [Validator.new (key 1).publicKey 1 .UNSPECIFIED, Validator.new (key 2).publicKey 3 .UNSPECIFIED]
  totalPower := 4
  nonempty := by simp
  positive := by simp [Validator.new]
  sorted := by decide +kernel
  total := by simp [Validator.new]

def light : Node := Node.new chain (key 1) outweighed (funded 0) genesis (.inMemory none)

def prevoteOf (k : Nat) (round : Round) (block : Block) : SignedVote :=
  Vote.sign { chainId := chain, height := 1, round, voteType := .prevote, blockId := some block.header.id
              validator := addressOf k } (key k)

def other : Block := light.buildBlock 300 []

def proposedBy (k : Nat) (round : Round) (block : Block) (validRound : Option Round) : SignedProposal :=
  Proposal.sign { chainId := chain, height := 1, round, block, validRound, proposer := addressOf k } (key k)

/-- A quorum for one block in round 0 and for another in round 1. -/
def swayed : List Node.Input :=
  [.event (.vote (prevoteOf 2 0 bare)), .event (.timeout .precommit), .event (.vote (prevoteOf 2 1 other)),
    .event (.timeout .precommit)]

theorem swayed_respects_lock : Node.AllMeet Node.LockRespected light swayed := by
  refine ⟨.of_unlocked rfl _, .of_roundEnd _, .of_vote ?_ ?_, .of_roundEnd _, trivial⟩
  · decide +kernel
  · decide +kernel

theorem lock_discipline_swayed :
    .broadcastVote (light.ownVote .precommit (some bare.header.id)) ∈ (light.run swayed).2 ∧
    ∃ round, light.round < round ∧ round < (light.run swayed).1.round ∧
      (light.run swayed).1.quorumAt .prevote round = some (some other.header.id) := by
  have hprecommit : .broadcastVote (light.ownVote .precommit (some bare.header.id)) ∈ (light.run swayed).2 := by
    decide +kernel
  have hanswer : (light.run swayed).1.roundState.decidePrevote (some other.header.id) none
      ((light.run swayed).1.validateBlock other) = .prevote (some other.header.id) := by
    decide +kernel
  have hi : (light.run swayed).1.LockRespected (.event (.proposal (proposedBy 2 2 other none))) :=
    .of_proposal (by decide +kernel) hanswer (by decide +kernel)
  have hprevote : .broadcastVote ((light.run swayed).1.ownVote .prevote (some other.header.id)) ∈
      ((light.run swayed).1.step (.event (.proposal (proposedBy 2 2 other none)))).2 := by
    decide +kernel
  have hheight : Node.InOneHeight (light.run swayed).2 := by
    unfold Node.InOneHeight
    decide +kernel
  have hround := lock_discipline (Node.run_trace swayed_respects_lock) hheight rfl (fun _ => rfl) hi hprecommit rfl rfl
    hprevote rfl rfl (by decide +kernel) (by decide +kernel)
  exact ⟨hprecommit, hround⟩

/-- Locked on one block in round 0 and in round 2 by way of nothing but timeouts. -/
def waited : Node × List Action :=
  light.run [.event (.vote (prevoteOf 2 0 bare)), .event (.timeout .precommit), .event (.timeout .propose),
    .event (.timeout .prevote), .event (.timeout .precommit)]

/-- The proposer of round 2 says it saw a quorum in round 1. -/
theorem prevotes_on_claimed_valid_round :
    .broadcastVote (light.ownVote .precommit (some bare.header.id)) ∈ waited.2 ∧ waited.1.height = light.height ∧
    .broadcastVote (waited.1.ownVote .prevote (some other.header.id)) ∈
      (waited.1.step (.event (.proposal (proposedBy 2 2 other (some 1))))).2 ∧
    light.round = 0 ∧ waited.1.round = 2 ∧ other.header.id ≠ bare.header.id ∧
    waited.1.quorumAt .prevote 1 = none := by
  decide +kernel

end Sample

end AfroLink
