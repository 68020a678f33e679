import AfroLink.Node.Lemmas.Prevotes

/-!
# Block times

A node never compares the time of a block with the time of the one before.
-/

open Std

namespace AfroLink

namespace Node

/-- The time is past the genesis block's, `g`, and every block's the node has appended. -/
def TimeAfter (g : Timestamp) (n : Node) (time : Timestamp) : Prop :=
  ∀ t ∈ g :: n.committed.map (·.header.time), t < time

/-- The appended blocks are in order of time, and so is every stored proposal if it is decided next. -/
structure Timely (g : Timestamp) (n : Node) : Prop where
  sorted : (g :: n.committed.map (·.header.time)).Pairwise (· < ·)
  stored : ∀ (round : Round) (signed : SignedProposal), n.proposals[round]? = some signed →
    n.TimeAfter g signed.proposal.block.header.time

variable {g : Timestamp} {n n' : Node}

theorem Timely.congr (h : n.Timely g) (hp : n'.proposals = n.proposals) (hc : n'.committed = n.committed) :
    n'.Timely g := by
  refine ⟨hc ▸ h.sorted, fun round signed hs => ?_⟩
  unfold TimeAfter
  rw [hc]
  exact h.stored round signed (hp ▸ hs)

variable {signed : SignedProposal} {i : Input}

theorem Timely.adopt (h : n.Timely g) (hs : n.TimeAfter g signed.proposal.block.header.time) :
    (n.adopt signed).Timely g := by
  refine ⟨h.sorted, fun round other hother => ?_⟩
  simp only [Node.adopt, TreeMap.getElem?_insert] at hother
  split at hother
  · cases hother
    exact hs
  · exact h.stored round other hother

theorem SameCore.timeAfter_iff (h : SameCore n n') {time : Timestamp} : n'.TimeAfter g time ↔ n.TimeAfter g time := by
  obtain ⟨_, _, _, _, _, _, rfl⟩ := h
  exact Iff.rfl

theorem SameCore.timely (h : SameCore n n') (ht : n'.Timely g) : n.Timely g := by
  obtain ⟨_, _, _, _, _, _, rfl⟩ := h
  exact ⟨ht.sorted, ht.stored⟩

variable [Crypto] [StateRoot]

theorem Timely.retired (h : n.Timely g) {block : Block} {commit : Commit} (hb : n.TimeAfter g block.header.time) :
    (n.retired block commit).Timely g := by
  constructor
  · show (g :: (n.committed ++ [block]).map (·.header.time)).Pairwise (· < ·)
    rw [List.map_append, ← List.cons_append]
    refine List.pairwise_append.2 ⟨h.sorted, List.pairwise_singleton _ _, fun t ht t' ht' => ?_⟩
    rw [List.mem_singleton.1 ht']
    exact hb t ht
  · intro round signed hs
    simp [Node.retired, advancePast] at hs

/-- What a node is given comes in order of time: proposals it accepts, the clock when it is to propose, and
blocks it syncs. -/
def InTime (g : Timestamp) (n : Node) : Input → Prop
  | .event (.proposal signed) => n.acceptsProposal signed.proposal = true →
      n.TimeAfter g signed.proposal.block.header.time
  | .event _ => True
  | .start time => n.isProposer n.round = true → n.TimeAfter g time
  | .sync block commit => n.validateBlock block = true → n.Certifies block commit →
      n.TimeAfter g block.header.time

theorem isProposer_of_accepts {time : Timestamp} (h : n.acceptsProposal (n.ownProposal time).proposal = true) :
    n.isProposer n.round = true := by
  obtain ⟨-, -, -, ⟨proposer, hproposer, haddress⟩, -⟩ := acceptsProposal_iff.1 h
  have hproposer' : n.validators.proposer n.height n.round = some proposer := hproposer
  have haddress' : proposer.address = n.address := haddress
  simp [isProposer, hproposer', haddress']

theorem Timely.offered (h : n.Timely g) (hi : n.InTime g i)
    (hoffer : n.offer i = some signed) (haccept : n.acceptsProposal signed.proposal = true) :
    n.TimeAfter g signed.proposal.block.header.time := by
  cases i with
  | event e =>
    cases e with
    | proposal received =>
      cases hoffer
      exact hi haccept
    | vote | transaction | timeout => cases hoffer
  | start time =>
    cases hoffer
    have htime : n.TimeAfter g time := hi (isProposer_of_accepts haccept)
    show n.TimeAfter g (n.blockToPropose time).1.header.time
    unfold blockToPropose
    simp only
    split
    · -- a block proposed again is a stored one
      rename_i hlast
      obtain ⟨round, hround⟩ := TreeMap.mem_values.1 (List.mem_of_getLast? hlast)
      exact h.stored round _ hround
    · exact htime
  | sync block commit => cases hoffer

omit [StateRoot] in
theorem Timely.cast (h : n.Timely g) (voteType : VoteType) (blockId : Option Hash32) :
    (n.cast voteType blockId).1.Timely g :=
  h.congr (cast_proj (·.proposals) n voteType blockId fun _ _ _ _ _ => rfl)
    (cast_proj (·.committed) n voteType blockId fun _ _ _ _ _ => rfl)

theorem Move.timely {n₀ : Node} {as : List Action} (hm : Move n₀ i n as n') (hi : n₀.InTime g i)
    (h : n.Timely g) : n'.Timely g := by
  cases hm with
  | quiet hcore =>
    obtain ⟨_, _, _, _, _, _, rfl⟩ := hcore
    exact ⟨h.sorted, h.stored⟩
  | @prevote _ signed value hpre hoffer haccept hvalue =>
    have hs : n₀.TimeAfter g signed.proposal.block.header.time :=
      Timely.offered (hpre.timely h) hi hoffer haccept
    exact (h.adopt (hpre.timeAfter_iff.2 hs)).cast _ _
  | prevoteNil => exact Timely.cast (n := n.atStep .prevote) ⟨h.sorted, h.stored⟩ _ _
  | precommitNil => exact Timely.cast (n := n.atStep .precommit) ⟨h.sorted, h.stored⟩ _ _
  | receive => exact h.congr (fileVote_proj (·.proposals) _ _ fun _ _ => rfl) (fileVote_proj (·.committed) _ _ fun _ _ => rfl)
  | @lock _ quorum => exact Timely.cast (n := n.locked quorum) ⟨h.sorted, h.stored⟩ _ _
  | propose => exact ⟨h.sorted, h.stored⟩
  | nextRound => exact ⟨h.sorted, h.stored⟩
  | commit hq hfor =>
    obtain ⟨round, hround, -, -⟩ := proposalFor_eq_some.1 hfor
    exact h.retired (h.stored round _ hround)
  | sync hsync hb hc =>
    subst hsync
    exact h.retired (hi hb hc)

theorem step_timely (hi : n.InTime g i) (h : n.Timely g) : (n.step i).1.Timely g :=
  (step_moves n i).preserves (fun _ _ _ h hm => hm.timely hi h) h

end Node

end AfroLink
