import AfroLink.Consensus.Lemmas.Tally

/-!
# The tally of a vote set

Whatever is delivered and in whatever order, the incremental counts are the sums over the votes that are held, and
no second value reaches a quorum.
-/

open Std (TreeMap)

namespace AfroLink

theorem vote_tally [Crypto] (vs : ValidatorSet) (chainId : ChainId) (height : Height) (round : Round)
    (voteType : VoteType) (votes : List SignedVote) :
    let start := VoteSet.new chainId height round voteType
    let s := start.deliverAll vs votes
    (∀ a, ¬ (s.votes.contains a = true ∧ s.equivocators.contains a = true)) ∧
    (∀ a, s.votes.contains a = true → ∃ w ∈ vs.validators, w.address = a) ∧
    (∀ v, (s.powerFor v).val =
      ((vs.validators.filter fun w => s.valueOf w.address = some v).map fun w => w.votingPower.val).sum) ∧
    s.totalVoted.val =
      ((vs.validators.filter fun w => s.votes.contains w.address).map fun w => w.votingPower.val).sum ∧
    (∀ v w, vs.hasQuorum (s.powerFor v) = true → vs.hasQuorum (s.powerFor w) = true → v = w) ∧
    ∀ votes', votes'.Perm votes →
      (∀ v, (start.deliverAll vs votes').powerFor v = s.powerFor v) ∧
      (start.deliverAll vs votes').totalVoted = s.totalVoted ∧
      ∀ a, (start.deliverAll vs votes').equivocators.contains a = s.equivocators.contains a := by
  intro start s
  have hall : ∀ l, VoteSet.Tallies vs start l (start.deliverAll vs l) := fun l =>
    (VoteSet.Tallies.new vs chainId height round voteType).deliverAll l
  have h : VoteSet.Tallies vs start votes s := hall votes
  have hheld : ∀ a, s.votes.contains a = (s.valueOf a).isSome := fun a => by
    rw [VoteSet.valueOf, Option.isSome_map, TreeMap.isSome_getElem?_eq_contains]
  refine ⟨?_, ?_, ?_, ?_, fun v w => h.quorum_unique, ?_⟩
  · rintro a ⟨hvote, hcaught⟩
    rw [hheld, h.apart hcaught] at hvote
    cases hvote
  · intro a ha
    rw [hheld, Option.isSome_iff_exists] at ha
    obtain ⟨v, hv⟩ := ha
    exact ValidatorSet.mem_members.1 (h.member a v hv)
  · intro v
    rw [h.power v, VoteSet.weightOf_holders]
    congr 2
    refine List.filter_congr fun w _ => ?_
    rw [Bool.eq_iff_iff]
    cases s.valueOf w.address <;> simp
  · rw [h.total, VoteSet.weightOf_holders]
    congr 2
    refine List.filter_congr fun w _ => ?_
    rw [hheld]
    cases s.valueOf w.address <;> rfl
  · intro votes' hperm
    have h' := hall votes'
    have hvalue : ∀ a, (start.deliverAll vs votes').valueOf a = s.valueOf a := h'.valueOf_congr h hperm
    have hholders : ∀ p, (start.deliverAll vs votes').holders vs p = s.holders vs p := fun p => by
      simp only [VoteSet.holders, hvalue]
    refine ⟨fun v => ?_, ?_, fun a => ?_⟩
    · exact Fin.ext (by rw [h'.power, h.power, hholders])
    · exact Fin.ext (by rw [h'.total, h.total, hholders])
    · rw [Bool.eq_iff_iff, h'.caught, h.caught]
      simp only [VoteSet.Cast.perm hperm]

end AfroLink
