import AfroLink.Node.Lemmas.VoteSets
import AfroLink.Node.Theorems.Blocks

/-!
# What the votes of others leave behind

A vote nobody in the set has signed does nothing to a node, except that the first to name a round makes the node keep
a set for it.
-/

open Std (TreeMap)

namespace AfroLink

/-! ## Forged votes -/

theorem forged_votes_leave_no_trace_iff [Crypto] [StateRoot] :
    (∀ (n : Node) (signed : SignedVote), n.validators.signs signed = false →
      (n.handle (.vote signed)).2 = [] ∧
      (n.Alike (n.handle (.vote signed)).1 ↔
        n.decided = true ∨ signed.vote.height ≠ n.height ∨ n.Knows signed.vote.voteType signed.vote.round)) ∧
    ((∀ (sk : SecretKey) (domain : Domain) (message : Bytes),
        sk.publicKey.verify domain message (sk.sign domain message) = true) →
      ∀ (n : Node) (inputs : List Node.Input), n.prevotes = ∅ → n.precommits = ∅ → n.IsValidator →
      Node.AllMeet Node.Expects n inputs →
      (n.run inputs).1.prevotes.size + (n.run inputs).1.precommits.size ≤
        2 * ((n.run inputs).1.signedRounds
          (inputs.flatMap Node.Input.delivered ++ (n.run inputs).2.filterMap Action.sent)).card) := by
  constructor
  · intro n signed hforged
    rw [Node.handle_of_forged hforged]
    refine ⟨rfl, ?_⟩
    show n.Alike (if n.decided ∨ signed.vote.height ≠ n.height then n else (n.fileVote signed).1) ↔ _
    split
    · rename_i hidle
      exact iff_of_true (.refl n) (hidle.elim .inl fun h => .inr (.inl h))
    · rename_i hbusy
      rw [not_or] at hbusy
      rw [or_iff_right hbusy.1, or_iff_right hbusy.2]
      constructor
      · exact fun halike => halike.knows (Node.fileVote_knows.2 (.inl ⟨rfl, rfl⟩))
      · exact Node.fileVote_alike hforged
  · intro hsign n inputs hprevotes hprecommits hself hmeet
    have hempty : n.Sourced [] := by
      intro voteType round hk
      cases voteType <;> simp [Node.Knows, Node.voteSets, hprevotes, hprecommits] at hk
    exact (Node.run_sourced hsign hempty hself hmeet).size_le

namespace Sample

/-- A prevote of round 7 in the name of the one validator, without its signature. -/
def unsignedVote : SignedVote := { solo.ownVote .prevote none with
  vote := { (solo.ownVote .prevote none).vote with round := 7 } }

theorem forged_vote_leaves_set :
    solo.validators.signs unsignedVote = false ∧ solo.prevotes.size = 0 ∧
    (solo.handle (.vote unsignedVote)).1.prevotes.size = 1 ∧
    ((solo.handle (.vote unsignedVote)).1.signedRounds [unsignedVote]).card = 0 := by
  decide +kernel

end Sample

end AfroLink
