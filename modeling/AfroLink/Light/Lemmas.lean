import AfroLink.Consensus.Lemmas.Power
import AfroLink.Light.LightClient

/-!
# What a light client asks of a header

The checks the two ways of updating have in common, the ones each adds, and that a refused header changes nothing.
-/

namespace AfroLink

variable [Crypto]

namespace Commit

theorem backs_of_verify {c : Commit} {chainId : ChainId} {vs : ValidatorSet} {signed : SignedVote}
    (h : c.verify chainId vs = .ok ()) (hsigned : signed ∈ c.signatures) : c.Backs chainId vs signed := by
  unfold verify at h
  split_ifs at h
  cases htally : c.tally chainId vs c.signatures [] 0 with
  | error e => simp [htally] at h
  | ok power => exact ((tally_ok htally).1 signed hsigned).1

end Commit

namespace LightClient

/-- What both kinds of update check of an offer. -/
structure Passes (c : LightClient) (o : Offer) : Prop where
  fresh : o.now.saturatingSub c.trusted.time ≤ c.trustingPeriodMs
  chain : o.header.chainId = c.chainId
  later : c.trusted.time < o.header.time
  notAhead : o.header.time ≤ o.now.saturatingAdd MAX_CLOCK_DRIFT_MS
  commitFor : o.commit.blockId = o.header.id ∧ o.commit.height = o.header.height
  validators : o.validators.hash = o.header.validatorsHash
  nextValidators : o.nextValidators.hash = o.header.nextValidatorsHash
  quorum : o.commit.verify c.chainId o.validators = .ok ()

def adopted (c : LightClient) (o : Offer) : LightClient :=
  { c with trusted := o.header, validators := o.validators, nextValidators := o.nextValidators }

/-- The client can follow the header to the next height: the trusted one names its set. -/
def NamesNext (c : LightClient) (o : Offer) : Prop :=
  o.header.height = c.trusted.height.next ∧ o.header.validatorsHash = c.trusted.nextValidatorsHash

variable {c c' : LightClient} {o : Offer}

omit [Crypto] in
theorem runs_checkFreshness {now : Timestamp} :
    Runs (checkFreshness now) c () c' ↔ now.saturatingSub c.trusted.time ≤ c.trustingPeriodMs ∧ c = c' := by
  simp [checkFreshness, and_comm]

omit [Crypto] in
theorem runs_checkChainAndTime {header : BlockHeader} {now : Timestamp} :
    Runs (checkChainAndTime header now) c () c' ↔ header.chainId = c.chainId ∧ c.trusted.time < header.time ∧
      header.time ≤ now.saturatingAdd MAX_CLOCK_DRIFT_MS ∧ c = c' := by
  simp [checkChainAndTime, and_assoc]

theorem runs_checkCommitAndSets :
    Runs (checkCommitAndSets o) c () c' ↔ (o.commit.blockId = o.header.id ∧ o.commit.height = o.header.height) ∧
      o.validators.hash = o.header.validatorsHash ∧ o.nextValidators.hash = o.header.nextValidatorsHash ∧ c = c' := by
  simp [checkCommitAndSets, and_assoc]

theorem runs_update :
    Runs (update o) c () c' ↔ c.Passes o ∧ c.NamesNext o ∧ o.header.parent = c.trusted.id ∧ c' = c.adopted o := by
  constructor
  · intro h
    obtain ⟨_, c₁, hage, h⟩ := Runs.bind_iff.1 h
    obtain ⟨hfresh, rfl⟩ := runs_checkFreshness.1 hage
    obtain ⟨_, c₂, htime, h⟩ := Runs.bind_iff.1 h
    obtain ⟨hchain, hlater, hahead, rfl⟩ := runs_checkChainAndTime.1 htime
    obtain ⟨c₃, c₄, hget, h⟩ := Runs.bind_iff.1 h
    obtain ⟨rfl, rfl⟩ := Runs.get_iff.1 hget
    obtain ⟨hheight, h⟩ := Runs.guard_iff.1 h
    obtain ⟨hparent, h⟩ := Runs.guard_iff.1 h
    obtain ⟨_, c₅, hsets, h⟩ := Runs.bind_iff.1 h
    obtain ⟨hcommit, hvalidators, hnext, rfl⟩ := runs_checkCommitAndSets.1 hsets
    obtain ⟨hnamed, h⟩ := Runs.guard_iff.1 h
    obtain ⟨_, hverify, h⟩ := Runs.lift h
    exact ⟨⟨hfresh, hchain, hlater, hahead, hcommit, hvalidators, hnext, hverify⟩, ⟨not_not.1 hheight, not_not.1 hnamed⟩,
      not_not.1 hparent, (Runs.modify_iff.1 h).symm⟩
  · rintro ⟨hpasses, ⟨hheight, hnamed⟩, hparent, rfl⟩
    refine Runs.bind_iff.2 ⟨(), c, runs_checkFreshness.2 ⟨hpasses.fresh, rfl⟩, ?_⟩
    refine Runs.bind_iff.2 ⟨(), c, runs_checkChainAndTime.2 ⟨hpasses.chain, hpasses.later, hpasses.notAhead, rfl⟩, ?_⟩
    refine Runs.bind_iff.2 ⟨c, c, Runs.get_iff.2 ⟨rfl, rfl⟩, ?_⟩
    refine Runs.guard_iff.2 ⟨not_not.2 hheight, Runs.guard_iff.2 ⟨not_not.2 hparent, ?_⟩⟩
    refine Runs.bind_iff.2 ⟨(), c, ?_, Runs.guard_iff.2 ⟨not_not.2 hnamed, ?_⟩⟩
    · exact runs_checkCommitAndSets.2 ⟨hpasses.commitFor, hpasses.validators, hpasses.nextValidators, rfl⟩
    · exact Runs.bind_iff.2 ⟨(), c, Runs.liftResult_iff.2 ⟨hpasses.quorum, rfl⟩, Runs.modify_iff.2 rfl⟩

theorem runs_verifySkipping :
    Runs (verifySkipping o) c () c' ↔ c.Passes o ∧ c.trusted.height < o.header.height ∧
      (c.NamesNext o ∨ c.validators.maxByzantinePower.saturatingAdd 1 ≤ c.trustedPowerIn o.commit) ∧
      c' = c.adopted o := by
  constructor
  · intro h
    obtain ⟨_, c₁, hage, h⟩ := Runs.bind_iff.1 h
    obtain ⟨hfresh, rfl⟩ := runs_checkFreshness.1 hage
    obtain ⟨_, c₂, htime, h⟩ := Runs.bind_iff.1 h
    obtain ⟨hchain, hlater, hahead, rfl⟩ := runs_checkChainAndTime.1 htime
    obtain ⟨c₃, c₄, hget, h⟩ := Runs.bind_iff.1 h
    obtain ⟨rfl, rfl⟩ := Runs.get_iff.1 hget
    obtain ⟨hheight, h⟩ := Runs.guard_iff.1 h
    obtain ⟨_, c₅, hsets, h⟩ := Runs.bind_iff.1 h
    obtain ⟨hcommit, hvalidators, hnext, rfl⟩ := runs_checkCommitAndSets.1 hsets
    obtain ⟨_, hverify, h⟩ := Runs.lift h
    refine ⟨⟨hfresh, hchain, hlater, hahead, hcommit, hvalidators, hnext, hverify⟩, not_le.1 hheight, ?_⟩
    rcases Runs.ite_iff.1 h with ⟨hnamed, h⟩ | ⟨-, h⟩
    · exact ⟨.inl hnamed, (Runs.modify_iff.1 h).symm⟩
    · obtain ⟨hoverlap, h⟩ := Runs.guard_iff.1 h
      exact ⟨.inr (not_lt.1 hoverlap), (Runs.modify_iff.1 h).symm⟩
  · rintro ⟨hpasses, hheight, hlink, rfl⟩
    refine Runs.bind_iff.2 ⟨(), c, runs_checkFreshness.2 ⟨hpasses.fresh, rfl⟩, ?_⟩
    refine Runs.bind_iff.2 ⟨(), c, runs_checkChainAndTime.2 ⟨hpasses.chain, hpasses.later, hpasses.notAhead, rfl⟩, ?_⟩
    refine Runs.bind_iff.2 ⟨c, c, Runs.get_iff.2 ⟨rfl, rfl⟩, ?_⟩
    refine Runs.guard_iff.2 ⟨not_le.2 hheight, Runs.bind_iff.2 ⟨(), c, ?_, ?_⟩⟩
    · exact runs_checkCommitAndSets.2 ⟨hpasses.commitFor, hpasses.validators, hpasses.nextValidators, rfl⟩
    · refine Runs.bind_iff.2 ⟨(), c, Runs.liftResult_iff.2 ⟨hpasses.quorum, rfl⟩, Runs.ite_iff.2 ?_⟩
      by_cases hnamed : o.header.height = c.trusted.height.next ∧ o.header.validatorsHash = c.trusted.nextValidatorsHash
      · exact .inl ⟨hnamed, Runs.modify_iff.2 rfl⟩
      · exact .inr ⟨hnamed, Runs.guard_iff.2 ⟨not_lt.2 (hlink.resolve_left hnamed), Runs.modify_iff.2 rfl⟩⟩

theorem runs_call {k : Call} (h : Runs k.run c () c') : c.Passes k.offer ∧ c' = c.adopted k.offer := by
  cases k with
  | update o =>
    obtain ⟨hpasses, -, -, hafter⟩ := runs_update.1 h
    exact ⟨hpasses, hafter⟩
  | verifySkipping o =>
    obtain ⟨hpasses, -, -, hafter⟩ := runs_verifySkipping.1 h
    exact ⟨hpasses, hafter⟩

theorem call_error {k : Call} {e : LightError} (h : k.run c = .error e c') : c' = c := by
  have hwp : wp k.run (fun _ _ => True) (fun _ c' => c' = c) c := by
    cases k with
    | update o => simp [Call.run, update, checkFreshness, checkChainAndTime, checkCommitAndSets, adopt]
    | verifySkipping o => simp [Call.run, verifySkipping, checkFreshness, checkChainAndTime, checkCommitAndSets, adopt]
  unfold wp at hwp
  rwa [h] at hwp

theorem after_of_runs {k : Call} (h : Runs k.run c () c') : c.after k = c' := by
  unfold Runs at h
  rw [after, h]

theorem after_cases (c : LightClient) (k : Call) : Runs k.run c () (c.after k) ∨ c.after k = c := by
  unfold after Runs
  cases h : k.run c with
  | ok u c' => exact .inl rfl
  | error e c' => exact .inr (call_error h)

/-! ## Overlap -/

/-- The members of the set with a signature that verifies under their key. -/
def signersOf (vs : ValidatorSet) (signatures : List SignedVote) : Finset Address :=
  vs.electorate.members.filter fun a => ∃ signed ∈ signatures, signed.vote.validator = a ∧
    (vs.get a).any (fun v => signed.verifies v.publicKey) = true

theorem signersOf_cons_subset (vs : ValidatorSet) (signed : SignedVote) (rest : List SignedVote) :
    signersOf vs rest ⊆ signersOf vs (signed :: rest) := by
  intro a ha
  obtain ⟨hmember, other, hother, hverifies⟩ := Finset.mem_filter.1 ha
  exact Finset.mem_filter.2 ⟨hmember, other, .tail _ hother, hverifies⟩

theorem trustedPowerFrom_le (vs : ValidatorSet) (signatures : List SignedVote) (counted : List Address) (power : U64) :
    (trustedPowerFrom vs signatures counted power).val ≤
      power.val + vs.electorate.weightOf (signersOf vs signatures \ counted.toFinset) := by
  induction signatures generalizing counted power with
  | nil => exact Nat.le_add_right _ _
  | cons signed rest ih =>
    have hskip : (trustedPowerFrom vs rest counted power).val ≤
        power.val + vs.electorate.weightOf (signersOf vs (signed :: rest) \ counted.toFinset) :=
      (ih counted power).trans (Nat.add_le_add_left
        (Electorate.weightOf_mono (Finset.sdiff_subset_sdiff (signersOf_cons_subset vs signed rest) subset_rfl)) _)
    unfold trustedPowerFrom
    simp only
    split
    · exact hskip
    · rename_i hcounted
      cases hget : vs.get signed.vote.validator with
      | none => exact hskip
      | some v =>
        simp only
        split
        · -- the signer's own weight, and the others' without the signer
          rename_i hverifies
          obtain ⟨hmem, haddress⟩ := ValidatorSet.get_eq_some.1 hget
          have hweight : vs.electorate.weight signed.vote.validator = v.votingPower.val := by
            rw [← haddress]
            exact congrArg Fin.val (ValidatorSet.powerOf_of_mem hmem)
          have hmine : signed.vote.validator ∈ signersOf vs (signed :: rest) \ counted.toFinset := by
            refine Finset.mem_sdiff.2 ⟨Finset.mem_filter.2 ⟨ValidatorSet.mem_members.2 ⟨v, hmem, haddress⟩, signed,
              .head _, rfl, ?_⟩, fun h => hcounted (List.mem_toFinset.1 h)⟩
            rw [hget]
            exact hverifies
          have hothers : signersOf vs rest \ (counted ++ [signed.vote.validator]).toFinset ⊆
              (signersOf vs (signed :: rest) \ counted.toFinset).erase signed.vote.validator := by
            intro a ha
            obtain ⟨hsigner, hnot⟩ := Finset.mem_sdiff.1 ha
            simp only [List.toFinset_append, Finset.mem_union, List.mem_toFinset, List.mem_singleton, not_or] at hnot
            exact Finset.mem_erase.2 ⟨hnot.2, Finset.mem_sdiff.2 ⟨signersOf_cons_subset vs signed rest hsigner,
              fun h => hnot.1 (List.mem_toFinset.1 h)⟩⟩
          have hsum : vs.electorate.weight signed.vote.validator +
              vs.electorate.weightOf ((signersOf vs (signed :: rest) \ counted.toFinset).erase signed.vote.validator) =
              vs.electorate.weightOf (signersOf vs (signed :: rest) \ counted.toFinset) :=
            Finset.add_sum_erase _ _ hmine
          have hrest := ih (counted ++ [signed.vote.validator]) (power.saturatingAdd v.votingPower)
          have hmono := Electorate.weightOf_mono (E := vs.electorate) hothers
          rw [Fin.saturatingAdd_val] at hrest
          omega
        · exact hskip

theorem trustedPowerIn_le (c : LightClient) (commit : Commit) :
    (c.trustedPowerIn commit).val ≤ c.validators.electorate.weightOf (signersOf c.validators commit.signatures) := by
  have h := trustedPowerFrom_le c.validators commit.signatures [] 0
  simpa [trustedPowerIn] using h

end LightClient

end AfroLink
