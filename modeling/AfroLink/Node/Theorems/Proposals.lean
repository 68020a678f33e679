import AfroLink.Node.Lemmas.Valid
import AfroLink.Node.Theorems.Locking
import AfroLink.Node.Theorems.Signing

/-!
# What a node proposes again

A proposer whose valid value has had a quorum puts forward the block of the highest round it has a proposal of, with the
valid value's round beside it.
-/

open Std (TreeMap)

namespace AfroLink

namespace Node

variable [Crypto] [StateRoot]

omit [StateRoot] in
theorem broadcastProposal_not_mem_cast (n : Node) (voteType : VoteType) (blockId : Option Hash32)
    (signed : SignedProposal) : .broadcastProposal signed ∉ (n.cast voteType blockId).2 := by
  rcases cast_cases n voteType blockId with ⟨_, _, -, hcast⟩ | ⟨_, -, -, hcast⟩ <;> simp [hcast]

theorem broadcastProposal_not_mem_handle (n : Node) (e : Event) (signed : SignedProposal) :
    .broadcastProposal signed ∉ (n.handle e).2 := by
  intro h
  obtain ⟨m, as, m', hmove, hmem⟩ := (handle_moves n e).trace.exists_step_of_mem h
  cases hmove with
  | quiet _ _ _ has => cases has _ hmem
  | prevote => exact broadcastProposal_not_mem_cast _ _ _ _ hmem
  | prevoteNil => exact broadcastProposal_not_mem_cast _ _ _ _ hmem
  | precommitNil => exact broadcastProposal_not_mem_cast _ _ _ _ hmem
  | lock => exact broadcastProposal_not_mem_cast _ _ _ _ hmem
  | receive => cases hmem
  | propose hi => cases hi
  | nextRound => simp at hmem
  | commit => simp at hmem
  | sync hi => cases hi

theorem startRound_proposes {n : Node} {time : Timestamp} {signed : SignedProposal}
    (h : .broadcastProposal signed ∈ (n.startRound time).2) : signed = n.ownProposal time := by
  unfold startRound at h
  simp only at h
  split at h
  · cases h
  · split at h
    · split at h
      · simp at h
      · rename_i signing _ _
        rcases List.mem_cons.1 h with h | h
        · exact Action.broadcastProposal.inj h
        · exact absurd h (broadcastProposal_not_mem_handle _ (.proposal _) signed)
    · simp at h

theorem ownProposal_reproposes {n : Node} {time : Timestamp} {r : Round}
    (h : (n.ownProposal time).proposal.validRound = some r) :
    n.roundState.validRound = some r ∧ (∃ v, n.roundState.validValue = some v) ∧
      ∃ last, n.proposals.values.getLast? = some last ∧ (n.ownProposal time).proposal.blockId = last.proposal.blockId := by
  have hround : (n.blockToPropose time).2 = some r := h
  unfold blockToPropose at hround
  simp only at hround
  split at hround
  · rename_i v last hv hlast
    refine ⟨hround, ⟨v, hv⟩, last, hlast, ?_⟩
    show (n.blockToPropose time).1.header.id = last.proposal.block.header.id
    simp only [blockToPropose, hv, hlast]
  · cases hround

end Node

theorem reproposes_valid_value_iff [Crypto] [StateRoot] (n₀ : Node) (hfresh : n₀.roundState.validValue = none)
    (inputs : List Node.Input) (time : Timestamp) (signed : SignedProposal) (r : Round)
    (h : .broadcastProposal signed ∈ ((n₀.run inputs).1.startRound time).2)
    (hr : signed.proposal.validRound = some r) :
    (n₀.run inputs).1.roundState.validValue = some signed.proposal.blockId ∧
        n₀.HeldQuorum inputs r signed.proposal.blockId ↔
      ∀ (round : Round) (p : SignedProposal), (n₀.run inputs).1.proposals[round]? = some p →
        (∀ later : Round, round < later → (n₀.run inputs).1.proposals[later]? = none) →
        (n₀.run inputs).1.roundState.validValue = some p.proposal.blockId := by
  obtain rfl := Node.startRound_proposes h
  obtain ⟨hround, ⟨v, hv⟩, last, hlast, hid⟩ := Node.ownProposal_reproposes hr
  obtain ⟨highest, hstored, hnone⟩ := TreeMap.exists_of_getLast?_values hlast
  obtain ⟨r', hr', hheld⟩ := Node.run_heldQuorum hfresh inputs hv
  obtain rfl : r = r' := Option.some.inj (hround.symm.trans hr')
  rw [hid]
  constructor
  · rintro ⟨hvalue, -⟩ round p hp hlater
    -- the greatest round with a proposal is one
    have hle : ¬ highest < round := fun hlt => by
      rw [hnone round (compare_lt_iff_lt.2 hlt)] at hp
      cases hp
    have hge : ¬ round < highest := fun hlt => by
      rw [hlater highest hlt] at hstored
      cases hstored
    obtain rfl : highest = round := le_antisymm (not_lt.1 hge) (not_lt.1 hle)
    obtain rfl := Option.some.inj (hstored.symm.trans hp)
    exact hvalue
  · intro hall
    have hvalue := hall highest last hstored fun later hlt => hnone later (compare_lt_iff_lt.2 hlt)
    obtain rfl : v = last.proposal.blockId := Option.some.inj (hv.symm.trans hvalue)
    exact ⟨hvalue, hheld⟩

namespace Sample

def lightBlock : Block := light.buildBlock 200 []

/-- Round 0 ends with a quorum for its block and no commit, and what comes in round 1 decides what is proposed. -/
def stalled (second : Node.Input) : List Node.Input :=
  [.start 200, .event (.vote (prevoteOf 2 0 lightBlock)), .event (.timeout .precommit), second,
    .event (.timeout .prevote), .event (.timeout .precommit), .event (.timeout .propose), .event (.timeout .prevote),
    .event (.timeout .precommit)]

def quiet : List Node.Input := stalled (.event (.timeout .propose))

theorem reproposes_valid_value_quiet :
    ∃ signed, .broadcastProposal signed ∈ ((light.run quiet).1.startRound 400).2 ∧
      signed.proposal.validRound = some 0 ∧
      (light.run quiet).1.roundState.validValue = some signed.proposal.blockId ∧
      light.HeldQuorum quiet 0 signed.proposal.blockId := by
  obtain ⟨hsent, hround, hstored⟩ :
      .broadcastProposal ((light.run quiet).1.ownProposal 400) ∈ ((light.run quiet).1.startRound 400).2 ∧
      ((light.run quiet).1.ownProposal 400).proposal.validRound = some 0 ∧
      ∀ e ∈ (light.run quiet).1.proposals.toList,
        (light.run quiet).1.roundState.validValue = some e.2.proposal.blockId := by
    decide +kernel
  refine ⟨_, hsent, hround, (reproposes_valid_value_iff light rfl quiet 400 _ 0 hsent hround).2 fun round p hp _ => ?_⟩
  exact hstored (round, p) (TreeMap.mem_toList_iff_getElem?_eq_some.2 hp)

/-- In round 1 the other validator proposes a block of its own, which nobody supports. -/
def distracted : Node := (light.run (stalled (.event (.proposal (proposedBy 2 1 other none))))).1

theorem reproposes_unsupported_block :
    .broadcastProposal (distracted.ownProposal 400) ∈ (distracted.startRound 400).2 ∧
    (distracted.ownProposal 400).proposal.validRound = some 0 ∧
    (distracted.ownProposal 400).proposal.blockId = other.header.id ∧
    distracted.roundState.validValue = some lightBlock.header.id ∧ other.header.id ≠ lightBlock.header.id ∧
    distracted.quorumAt .prevote 0 = some (some lightBlock.header.id) := by
  decide +kernel

end Sample

end AfroLink
