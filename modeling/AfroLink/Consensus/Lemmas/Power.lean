import AfroLink.Base.Quorum
import AfroLink.Consensus.Vote

/-!
# Voting power

A validator set as an electorate: its threshold and its tolerance are the general ones, the words being wide enough for
them.
-/

namespace AfroLink

namespace ValidatorSet

def electorate (vs : ValidatorSet) : Electorate Address where
  members := (vs.validators.map (·.address)).toFinset
  weight a := (vs.powerOf a).val

theorem addresses_nodup (vs : ValidatorSet) : (vs.validators.map (·.address)).Nodup := by
  rw [List.Nodup, List.pairwise_map]
  exact vs.sorted.imp fun hlt => hlt.ne

variable {vs : ValidatorSet}

theorem mem_members {a : Address} : a ∈ vs.electorate.members ↔ ∃ v ∈ vs.validators, v.address = a := by
  simp [electorate]

theorem get_eq_some {a : Address} {v : Validator} : vs.get a = some v ↔ v ∈ vs.validators ∧ v.address = a := by
  unfold get
  constructor
  · intro h
    refine ⟨List.mem_of_find?_eq_some h, ?_⟩
    simpa using List.find?_some h
  · rintro ⟨hmem, rfl⟩
    cases h : vs.validators.find? fun w => w.address == v.address with
    | none => simpa using List.find?_eq_none.1 h v hmem
    | some w =>
      have hw : w.address = v.address := by simpa using List.find?_some h
      rw [List.inj_on_of_nodup_map vs.addresses_nodup (List.mem_of_find?_eq_some h) hmem hw]

theorem powerOf_of_mem {v : Validator} (h : v ∈ vs.validators) : vs.powerOf v.address = v.votingPower := by
  rw [powerOf, get_eq_some.2 ⟨h, rfl⟩]

theorem electorate_total (vs : ValidatorSet) : vs.electorate.total = vs.totalPower.val := by
  have hsum : vs.electorate.total = ((vs.validators.map (·.address)).map vs.electorate.weight).sum :=
    List.sum_toFinset _ vs.addresses_nodup
  have hmap : vs.validators.map (fun v => (vs.powerOf v.address).val) = vs.validators.map fun v => v.votingPower.val :=
    List.map_congr_left fun v hv => by rw [powerOf_of_mem hv]
  rw [hsum, vs.total, List.map_map, ← hmap]
  rfl

theorem electorate_threshold (vs : ValidatorSet) : vs.electorate.threshold = vs.quorumThreshold.val := by
  have hlt := vs.totalPower.isLt
  rw [Electorate.threshold, electorate_total]
  simp only [quorumThreshold]
  omega

theorem electorate_tolerance (vs : ValidatorSet) : vs.electorate.tolerance = vs.maxByzantinePower.val := by
  have hlt := vs.totalPower.isLt
  rw [Electorate.tolerance, electorate_total]
  simp only [maxByzantinePower]
  omega

theorem threshold_le_of_hasQuorum {power : U64} (h : vs.hasQuorum power = true) :
    vs.electorate.threshold ≤ power.val := by
  rw [electorate_threshold]
  exact of_decide_eq_true h

end ValidatorSet

/-! ## Commits -/

namespace Commit

variable [Crypto]

/-- A precommit for the block of the commit that verifies under the key the set lists for its signer. -/
def Backs (c : Commit) (chainId : ChainId) (vs : ValidatorSet) (signed : SignedVote) : Prop :=
  signed.vote.height = c.height ∧ signed.vote.round = c.round ∧ signed.vote.voteType = .precommit ∧
    signed.vote.blockId = some c.blockId ∧ signed.vote.chainId = chainId ∧
    (vs.get signed.vote.validator).any (fun v => signed.verifies v.publicKey) = true

instance (c : Commit) (chainId : ChainId) (vs : ValidatorSet) (signed : SignedVote) :
    Decidable (c.Backs chainId vs signed) :=
  inferInstanceAs (Decidable (_ ∧ _ ∧ _ ∧ _ ∧ _ ∧ _))

def signers (c : Commit) (chainId : ChainId) (vs : ValidatorSet) : Finset Address :=
  vs.electorate.members.filter fun a => ∃ signed ∈ c.signatures, signed.vote.validator = a ∧ c.Backs chainId vs signed

variable {vs : ValidatorSet} {chainId : ChainId} {c : Commit}

theorem Backs.mem_members {signed : SignedVote}
    (h : c.Backs chainId vs signed) : signed.vote.validator ∈ vs.electorate.members := by
  obtain ⟨-, -, -, -, -, hany⟩ := h
  cases hget : vs.get signed.vote.validator with
  | none => simp [hget] at hany
  | some v =>
    obtain ⟨hmem, haddress⟩ := ValidatorSet.get_eq_some.1 hget
    exact ValidatorSet.mem_members.2 ⟨v, hmem, haddress⟩

theorem tally_ok {l : List SignedVote} {seen : List Address}
    {power result : U64} (h : c.tally chainId vs l seen power = .ok result) :
    (∀ signed ∈ l, c.Backs chainId vs signed ∧ signed.vote.validator ∉ seen) ∧ (l.map (·.vote.validator)).Nodup ∧
    result.val ≤ power.val + (l.map fun signed => (vs.powerOf signed.vote.validator).val).sum := by
  induction l generalizing seen power with
  | nil =>
    cases h
    simp
  | cons signed rest ih =>
    unfold tally at h
    simp only at h
    split_ifs at h with hfields hseen
    simp only [not_or, not_not] at hfields
    obtain ⟨hheight, hround, htype, hblock, hchain⟩ := hfields
    cases hget : vs.get signed.vote.validator with
    | none => simp [hget] at h
    | some v =>
      simp only [hget] at h
      split at h
      · rename_i hverifies
        obtain ⟨hrest, hnodup, hsum⟩ := ih h
        have hback : c.Backs chainId vs signed :=
          ⟨hheight, hround, htype, hblock, hchain, by simp [hget, hverifies]⟩
        refine ⟨?_, ?_, ?_⟩
        · intro other hother
          rcases List.mem_cons.1 hother with rfl | hother
          · exact ⟨hback, hseen⟩
          · exact ⟨(hrest other hother).1, fun hmem => (hrest other hother).2 (List.mem_cons_of_mem _ hmem)⟩
        · rw [List.map_cons, List.nodup_cons]
          refine ⟨fun hmem => ?_, hnodup⟩
          obtain ⟨other, hother, heq⟩ := List.mem_map.1 hmem
          exact (hrest other hother).2 (heq ▸ List.mem_cons_self ..)
        · have hpower : vs.powerOf signed.vote.validator = v.votingPower := by rw [ValidatorSet.powerOf, hget]
          rw [List.map_cons, List.sum_cons, hpower]
          simp only [Fin.saturatingAdd_val] at hsum
          omega
      · cases h

theorem verify_ok (h : c.verify chainId vs = .ok ()) : vs.electorate.IsQuorum (c.signers chainId vs) := by
  unfold verify at h
  split_ifs at h
  cases htally : c.tally chainId vs c.signatures [] 0 with
  | error e => simp [htally] at h
  | ok power =>
    simp only [htally] at h
    split at h
    · rename_i hquorum
      obtain ⟨hbacks, hnodup, hsum⟩ := tally_ok htally
      refine ⟨Finset.filter_subset _ _, ?_⟩
      have hsub : (c.signatures.map (·.vote.validator)).toFinset ⊆ c.signers chainId vs := by
        intro a ha
        obtain ⟨signed, hsigned, rfl⟩ := List.mem_map.1 (List.mem_toFinset.1 ha)
        have hback := (hbacks signed hsigned).1
        exact Finset.mem_filter.2 ⟨hback.mem_members, signed, hsigned, rfl, hback⟩
      have hweight : vs.electorate.weightOf (c.signatures.map (·.vote.validator)).toFinset =
          (c.signatures.map fun signed => (vs.powerOf signed.vote.validator).val).sum := by
        rw [Electorate.weightOf, List.sum_toFinset _ hnodup, List.map_map]
        rfl
      calc vs.electorate.threshold
        _ ≤ power.val := ValidatorSet.threshold_le_of_hasQuorum hquorum
        _ ≤ (c.signatures.map fun signed => (vs.powerOf signed.vote.validator).val).sum := by simpa using hsum
        _ = vs.electorate.weightOf (c.signatures.map (·.vote.validator)).toFinset := hweight.symm
        _ ≤ vs.electorate.weightOf (c.signers chainId vs) := Electorate.weightOf_mono hsub
    · cases h

end Commit

end AfroLink
