import AfroLink.Consensus.Lemmas.Power
import AfroLink.Crypto.Sample

/-!
# Certificates

Two commits of one height and round for different blocks convict more validators than may be at fault.
-/

namespace AfroLink

theorem conflicting_commits_accountable [Crypto] (vs : ValidatorSet) (chainId : ChainId) (c c' : Commit)
    (hheight : c.height = c'.height) (hround : c.round = c'.round) (hblock : c.blockId ≠ c'.blockId)
    (h : c.verify chainId vs = .ok ()) (h' : c'.verify chainId vs = .ok ()) :
    vs.maxByzantinePower.val < vs.electorate.weightOf (c.signers chainId vs ∩ c'.signers chainId vs) ∧
    ∀ a ∈ c.signers chainId vs ∩ c'.signers chainId vs,
      ∃ first ∈ c.signatures, ∃ second ∈ c'.signatures,
        c.Backs chainId vs first ∧ c'.Backs chainId vs second ∧
        first.vote.validator = a ∧ second.vote.validator = a ∧
        first.vote.height = second.vote.height ∧ first.vote.round = second.vote.round ∧
        first.vote.blockId ≠ second.vote.blockId := by
  constructor
  · rw [← ValidatorSet.electorate_tolerance]
    exact (Commit.verify_ok h).tolerance_lt_inter (Commit.verify_ok h')
  · intro a ha
    obtain ⟨hfirst, hsecond⟩ := Finset.mem_inter.1 ha
    obtain ⟨-, first, hmem, haddress, hback⟩ := Finset.mem_filter.1 hfirst
    obtain ⟨-, second, hmem', haddress', hback'⟩ := Finset.mem_filter.1 hsecond
    refine ⟨first, hmem, second, hmem', hback, hback', haddress, haddress', ?_, ?_, ?_⟩
    · rw [hback.1, hheight, hback'.1]
    · rw [hback.2.1, hround, hback'.2.1]
    · rw [hback.2.2.2.1, hback'.2.2.2.1]
      exact fun heq => hblock (Option.some.inj heq)

namespace Sample

def alone : ValidatorSet where
  validators := [Validator.new (key 1).publicKey 1 .UNSPECIFIED]
  totalPower := 1
  nonempty := by simp
  positive := by simp [Validator.new]
  sorted := by simp
  total := by simp [Validator.new]

def signedFor (blockId : Hash32) : Commit :=
  { height := 1, round := 0, blockId
    signatures := [Vote.sign { chainId := chain, height := 1, round := 0, voteType := .precommit
                               blockId := some blockId, validator := addressOf 1 } (key 1)] }

theorem conflicting_commits_accountable_alone :
    (signedFor 5).verify chain alone = .ok () ∧ (signedFor 6).verify chain alone = .ok () ∧
    alone.maxByzantinePower.val <
      alone.electorate.weightOf ((signedFor 5).signers chain alone ∩ (signedFor 6).signers chain alone) := by
  have hfirst : (signedFor 5).verify chain alone = .ok () := by decide +kernel
  have hsecond : (signedFor 6).verify chain alone = .ok () := by decide +kernel
  refine ⟨hfirst, hsecond, ?_⟩
  exact (conflicting_commits_accountable alone chain (signedFor 5) (signedFor 6) rfl rfl (by decide) hfirst hsecond).1

end Sample

end AfroLink
