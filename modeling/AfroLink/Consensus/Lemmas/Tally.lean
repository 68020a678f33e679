import AfroLink.Consensus.Lemmas.Power

/-!
# Tallies

What a set of votes holds after any sequence of deliveries, told from the votes that were delivered: a validator's
vote is held if everything it validly cast is for one value, and withdrawn for good once there is a second.
-/

open Std (TreeMap)

namespace AfroLink.VoteSet

def valueOf (s : VoteSet) (a : Address) : Option (Option Hash32) := s.votes[a]?.map (·.vote.blockId)

/-- The members whose held vote is for a value that satisfies `p`. -/
def holders (s : VoteSet) (vs : ValidatorSet) (p : Option Hash32 → Bool) : Finset Address :=
  vs.electorate.members.filter fun a => (s.valueOf a).any p = true

def SameSlot (s s' : VoteSet) : Prop :=
  s'.chainId = s.chainId ∧ s'.height = s.height ∧ s'.round = s.round ∧ s'.voteType = s.voteType

section

variable {s : VoteSet} {vs : ValidatorSet} {signed existing : SignedVote} {power : U64} {evidence : Equivocation}

theorem valueOf_record (a : Address) :
    (s.record power signed).valueOf a =
      if signed.vote.validator = a then some signed.vote.blockId else s.valueOf a := by
  simp only [valueOf, record, TreeMap.getElem?_insert, Std.compare_eq_iff_eq]
  split <;> rfl

theorem valueOf_withdraw (a : Address) :
    (s.withdraw power existing evidence).valueOf a = if evidence.validator = a then none else s.valueOf a := by
  simp only [valueOf, withdraw, TreeMap.getElem?_erase, Std.compare_eq_iff_eq]
  split <;> rfl

theorem powerFor_record (v : Option Hash32) :
    (s.record power signed).powerFor v =
      if signed.vote.blockId = v then (s.powerFor v).saturatingAdd power else s.powerFor v := by
  simp only [powerFor, record, TreeMap.getD_insert, Std.compare_eq_iff_eq]
  split
  · rename_i heq
    rw [heq]
  · rfl

theorem powerFor_withdraw (v : Option Hash32) :
    (s.withdraw power existing evidence).powerFor v =
      if existing.vote.blockId = v then (s.powerFor v).saturatingSub power else s.powerFor v := by
  unfold powerFor withdraw
  cases hslot : s.powerByValue[existing.vote.blockId]? with
  | none =>
    simp only [TreeMap.getD_eq_getD_getElem?]
    split
    · rename_i heq
      rw [← heq, hslot]
      exact Fin.ext (by simp)
    · rfl
  | some slot =>
    simp only [TreeMap.getD_insert, Std.compare_eq_iff_eq]
    split
    · rename_i heq
      rw [← heq, TreeMap.getD_eq_getD_getElem?, hslot]
      rfl
    · rfl

theorem weightOf_holders (s : VoteSet) (vs : ValidatorSet) (p : Option Hash32 → Bool) :
    vs.electorate.weightOf (s.holders vs p) =
      ((vs.validators.filter fun w => (s.valueOf w.address).any p).map fun w => w.votingPower.val).sum := by
  have hset : s.holders vs p =
      ((vs.validators.filter fun w => (s.valueOf w.address).any p).map (·.address)).toFinset := by
    ext a
    simp only [holders, Finset.mem_filter, ValidatorSet.mem_members, List.mem_toFinset, List.mem_map, List.mem_filter]
    constructor
    · rintro ⟨⟨w, hw, rfl⟩, hany⟩
      exact ⟨w, ⟨hw, hany⟩, rfl⟩
    · rintro ⟨w, ⟨hw, hany⟩, rfl⟩
      exact ⟨⟨w, hw, rfl⟩, hany⟩
  have hnodup : ((vs.validators.filter fun w => (s.valueOf w.address).any p).map (·.address)).Nodup :=
    vs.addresses_nodup.sublist (List.filter_sublist.map _)
  rw [hset, Electorate.weightOf, List.sum_toFinset _ hnodup, List.map_map]
  refine congrArg List.sum (List.map_congr_left fun w hw => ?_)
  exact congrArg Fin.val (ValidatorSet.powerOf_of_mem (List.mem_of_mem_filter hw))

theorem weightOf_holders_lt (s : VoteSet) (vs : ValidatorSet) (p : Option Hash32 → Bool) :
    vs.electorate.weightOf (s.holders vs p) < 2 ^ 64 := by
  have hle : vs.electorate.weightOf (s.holders vs p) ≤ vs.electorate.total :=
    Electorate.weightOf_mono (Finset.filter_subset _ _)
  rw [ValidatorSet.electorate_total] at hle
  exact hle.trans_lt vs.totalPower.isLt

theorem weightOf_holders_record (hmember : signed.vote.validator ∈ vs.electorate.members)
    (hnone : s.valueOf signed.vote.validator = none) (p : Option Hash32 → Bool) :
    vs.electorate.weightOf ((s.record power signed).holders vs p) =
      vs.electorate.weightOf (s.holders vs p) +
        if p signed.vote.blockId then vs.electorate.weight signed.vote.validator else 0 := by
  have hnotin : signed.vote.validator ∉ s.holders vs p := by simp [holders, hnone]
  have hother : ∀ a, signed.vote.validator ≠ a →
      (a ∈ (s.record power signed).holders vs p ↔ a ∈ s.holders vs p) := by
    intro a ha
    simp [holders, valueOf_record, ha]
  split
  · rename_i hp
    have hinsert : (s.record power signed).holders vs p = insert signed.vote.validator (s.holders vs p) := by
      ext a
      by_cases ha : signed.vote.validator = a
      · subst ha
        simp [holders, valueOf_record, hmember, hp]
      · rw [hother a ha, Finset.mem_insert, or_iff_right (Ne.symm ha)]
    rw [hinsert, Electorate.weightOf, Finset.sum_insert hnotin, Nat.add_comm]
    rfl
  · rename_i hp
    have hsame : (s.record power signed).holders vs p = s.holders vs p := by
      ext a
      by_cases ha : signed.vote.validator = a
      · subst ha
        simp [holders, valueOf_record, hp, hnone]
      · exact hother a ha
    rw [hsame, Nat.add_zero]

theorem weightOf_holders_withdraw (power : U64) (evidence : Equivocation)
    (hmember : evidence.validator ∈ vs.electorate.members)
    (hheld : s.valueOf evidence.validator = some existing.vote.blockId) (p : Option Hash32 → Bool) :
    vs.electorate.weightOf (s.holders vs p) =
      vs.electorate.weightOf ((s.withdraw power existing evidence).holders vs p) +
        if p existing.vote.blockId then vs.electorate.weight evidence.validator else 0 := by
  have hnotin : evidence.validator ∉ (s.withdraw power existing evidence).holders vs p := by
    simp [holders, valueOf_withdraw]
  have hother : ∀ a, evidence.validator ≠ a →
      (a ∈ (s.withdraw power existing evidence).holders vs p ↔ a ∈ s.holders vs p) := by
    intro a ha
    simp [holders, valueOf_withdraw, ha]
  split
  · rename_i hp
    have hinsert : s.holders vs p = insert evidence.validator ((s.withdraw power existing evidence).holders vs p) := by
      ext a
      by_cases ha : evidence.validator = a
      · subst ha
        simp [holders, hheld, hmember, hp]
      · rw [Finset.mem_insert, or_iff_right (Ne.symm ha), hother a ha]
    rw [hinsert, Electorate.weightOf, Finset.sum_insert hnotin, Nat.add_comm]
    rfl
  · rename_i hp
    have hsame : (s.withdraw power existing evidence).holders vs p = s.holders vs p := by
      ext a
      by_cases ha : evidence.validator = a
      · subst ha
        simp [holders, valueOf_withdraw, hp, hheld]
      · exact hother a ha
    rw [hsame, Nat.add_zero]

end

variable [Crypto]

/-- The set after a vote was delivered. One that is refused leaves it as it was. -/
def deliver (vs : ValidatorSet) (s : VoteSet) (signed : SignedVote) : VoteSet :=
  match s.add vs signed with
  | .ok (s, _) => s
  | .error _ => s

def deliverAll (vs : ValidatorSet) (s : VoteSet) (votes : List SignedVote) : VoteSet := votes.foldl (deliver vs) s

/-- A vote of this set's slot that is signed by a member. -/
def Genuine (s : VoteSet) (vs : ValidatorSet) (signed : SignedVote) : Prop :=
  ∃ validator, s.checkVote vs signed = .ok validator

/-- A genuine vote of `a` for `v` is among those delivered. -/
def Cast (s : VoteSet) (vs : ValidatorSet) (votes : List SignedVote) (a : Address) (v : Option Hash32) : Prop :=
  ∃ signed ∈ votes, s.Genuine vs signed ∧ signed.vote.validator = a ∧ signed.vote.blockId = v

section

variable {s start : VoteSet} {vs : ValidatorSet} {votes : List SignedVote} {signed : SignedVote}

theorem checkVote_congr (h : SameSlot start s) (signed : SignedVote) :
    s.checkVote vs signed = start.checkVote vs signed := by
  obtain ⟨hchain, hheight, hround, htype⟩ := h
  unfold checkVote
  rw [hchain, hheight, hround, htype]

theorem checkVote_ok {validator : Validator} (h : s.checkVote vs signed = .ok validator) :
    vs.get signed.vote.validator = some validator ∧ signed.verifies validator.publicKey = true := by
  unfold checkVote at h
  simp only at h
  split_ifs at h
  split at h
  · cases h
  · split at h
    · cases h
      exact ⟨‹_›, ‹_›⟩
    · cases h

variable {v : Option Hash32} {a : Address}

theorem cast_append : start.Cast vs (votes ++ [signed]) a v ↔
      start.Cast vs votes a v ∨ start.Genuine vs signed ∧ signed.vote.validator = a ∧ signed.vote.blockId = v := by
  simp only [Cast, List.mem_append, List.mem_singleton, or_and_right, exists_or, exists_eq_left]

theorem cast_append_of_ne (hne : signed.vote.validator ≠ a) :
    start.Cast vs (votes ++ [signed]) a v ↔ start.Cast vs votes a v := by
  rw [cast_append]
  exact or_iff_left fun h => hne h.2.1

theorem Cast.perm {votes' : List SignedVote} (h : votes.Perm votes') :
    start.Cast vs votes a v ↔ start.Cast vs votes' a v := by
  simp only [Cast, h.mem_iff]

inductive Delivers (vs : ValidatorSet) (s : VoteSet) (signed : SignedVote) : VoteSet → Prop where
  | refused (h : ¬ s.Genuine vs signed) : Delivers vs s signed s
  | ignored (h : s.Genuine vs signed) (caught : s.equivocators.contains signed.vote.validator = true) :
      Delivers vs s signed s
  | repeated (h : s.Genuine vs signed) (same : s.valueOf signed.vote.validator = some signed.vote.blockId) :
      Delivers vs s signed s
  | caught {validator : Validator} {existing : SignedVote} (h : s.checkVote vs signed = .ok validator)
      (held : s.votes[signed.vote.validator]? = some existing) (other : existing.vote.blockId ≠ signed.vote.blockId) :
      Delivers vs s signed (s.withdraw validator.votingPower existing ⟨signed.vote.validator, existing, signed⟩)
  | first {validator : Validator} (h : s.checkVote vs signed = .ok validator)
      (free : s.equivocators.contains signed.vote.validator = false) (fresh : s.votes[signed.vote.validator]? = none) :
      Delivers vs s signed (s.record validator.votingPower signed)

theorem deliver_delivers (vs : ValidatorSet) (s : VoteSet) (signed : SignedVote) :
    Delivers vs s signed (s.deliver vs signed) := by
  unfold deliver add
  cases hcheck : s.checkVote vs signed with
  | error e =>
    refine .refused ?_
    rintro ⟨validator, h⟩
    cases hcheck.symm.trans h
  | ok validator =>
    cases hcaught : s.equivocators.contains signed.vote.validator with
    | true => exact .ignored ⟨validator, hcheck⟩ hcaught
    | false =>
      cases hvote : s.votes[signed.vote.validator]? with
      | none => exact .first hcheck hcaught hvote
      | some existing =>
        by_cases hsame : existing.vote.blockId = signed.vote.blockId
        · simp only [hsame, if_true]
          refine .repeated ⟨validator, hcheck⟩ ?_
          rw [valueOf, hvote, Option.map_some, hsame]
        · simp only [hsame, if_false]
          exact .caught hcheck hvote hsame

end

/-! ## The invariant -/

/-- What the set holds, told from the votes that were delivered. -/
structure Tallies (vs : ValidatorSet) (start : VoteSet) (votes : List SignedVote) (s : VoteSet) : Prop where
  slot : SameSlot start s
  member : ∀ a v, s.valueOf a = some v → a ∈ vs.electorate.members
  held : ∀ a v, s.valueOf a = some v ↔ start.Cast vs votes a v ∧ ∀ w, start.Cast vs votes a w → w = v
  caught : ∀ a, s.equivocators.contains a = true ↔ ∃ v w, v ≠ w ∧ start.Cast vs votes a v ∧ start.Cast vs votes a w
  power : ∀ v, (s.powerFor v).val = vs.electorate.weightOf (s.holders vs (· == v))
  total : s.totalVoted.val = vs.electorate.weightOf (s.holders vs fun _ => true)

section

variable {s start : VoteSet} {vs : ValidatorSet} {votes : List SignedVote} {signed : SignedVote}

theorem Tallies.new (vs : ValidatorSet) (chainId : ChainId) (height : Height) (round : Round) (voteType : VoteType) :
    Tallies vs (.new chainId height round voteType) [] (.new chainId height round voteType) := by
  have hnone : ∀ a, (VoteSet.new chainId height round voteType).valueOf a = none := fun a => by simp [valueOf, VoteSet.new]
  have hfree : ∀ a, (VoteSet.new chainId height round voteType).equivocators.contains a = false := fun a => by
    simp [VoteSet.new]
  have hzero : ∀ v, (VoteSet.new chainId height round voteType).powerFor v = 0 := fun v => by
    simp [powerFor, VoteSet.new]
  refine ⟨⟨rfl, rfl, rfl, rfl⟩, ?_, ?_, ?_, ?_, ?_⟩
  · simp [hnone]
  · simp [hnone, Cast]
  · simp [hfree, Cast]
  · simp [holders, hnone, Electorate.weightOf, hzero]
  · simp only [holders, hnone, Option.any_none, Bool.false_eq_true, Finset.filter_false, Electorate.weightOf,
      Finset.sum_empty]
    rfl

theorem Tallies.genuine (h : Tallies vs start votes s) : s.Genuine vs signed ↔ start.Genuine vs signed := by
  simp only [Genuine, checkVote_congr h.slot]

theorem Tallies.not_cast (h : Tallies vs start votes s) {a : Address} (hnone : s.valueOf a = none)
    (hfree : s.equivocators.contains a = false) (v : Option Hash32) : ¬ start.Cast vs votes a v := by
  intro hcast
  by_cases hall : ∀ w, start.Cast vs votes a w → w = v
  · rw [(h.held a v).2 ⟨hcast, hall⟩] at hnone
    cases hnone
  · obtain ⟨w, hw⟩ := not_forall.1 hall
    obtain ⟨hw, hne⟩ := Classical.not_imp.1 hw
    rw [(h.caught a).2 ⟨w, v, hne, hw, hcast⟩] at hfree
    cases hfree

theorem Tallies.apart (h : Tallies vs start votes s) {a : Address} (hcaught : s.equivocators.contains a = true) :
    s.valueOf a = none := by
  obtain ⟨v, w, hne, hv, hw⟩ := (h.caught a).1 hcaught
  by_contra hsome
  obtain ⟨u, hu⟩ := Option.ne_none_iff_exists'.1 hsome
  obtain ⟨-, hall⟩ := (h.held a u).1 hu
  exact hne ((hall v hv).trans (hall w hw).symm)

theorem Tallies.unchanged (h : Tallies vs start votes s)
    (hcast : ∀ a v, start.Cast vs (votes ++ [signed]) a v ↔ start.Cast vs votes a v) :
    Tallies vs start (votes ++ [signed]) s := by
  refine ⟨h.slot, h.member, ?_, ?_, h.power, h.total⟩
  · simpa only [hcast] using h.held
  · simpa only [hcast] using h.caught

theorem Tallies.ignore (h : Tallies vs start votes s)
    (hcaught : s.equivocators.contains signed.vote.validator = true) : Tallies vs start (votes ++ [signed]) s := by
  obtain ⟨v, w, hne, hv, hw⟩ := (h.caught _).1 hcaught
  refine ⟨h.slot, h.member, ?_, ?_, h.power, h.total⟩
  · intro a u
    by_cases ha : signed.vote.validator = a
    · subst ha
      simp only [h.apart hcaught, reduceCtorEq, false_iff, not_and]
      intro _ hall
      exact hne ((hall v (cast_append.2 (.inl hv))).trans (hall w (cast_append.2 (.inl hw))).symm)
    · simp only [cast_append_of_ne ha]
      exact h.held a u
  · intro a
    by_cases ha : signed.vote.validator = a
    · subst ha
      simp only [hcaught, true_iff]
      exact ⟨v, w, hne, cast_append.2 (.inl hv), cast_append.2 (.inl hw)⟩
    · simp only [cast_append_of_ne ha]
      exact h.caught a

theorem Tallies.record (h : Tallies vs start votes s) {validator : Validator}
    (hcheck : s.checkVote vs signed = .ok validator) (hfree : s.equivocators.contains signed.vote.validator = false)
    (hfresh : s.votes[signed.vote.validator]? = none) :
    Tallies vs start (votes ++ [signed]) (s.record validator.votingPower signed) := by
  obtain ⟨hget, -⟩ := checkVote_ok hcheck
  obtain ⟨hvalidator, haddress⟩ := ValidatorSet.get_eq_some.1 hget
  have hmember : signed.vote.validator ∈ vs.electorate.members := ValidatorSet.mem_members.2 ⟨validator, hvalidator, haddress⟩
  have hweight : vs.electorate.weight signed.vote.validator = validator.votingPower.val := by
    rw [← haddress]
    exact congrArg Fin.val (ValidatorSet.powerOf_of_mem hvalidator)
  have hnone : s.valueOf signed.vote.validator = none := by rw [valueOf, hfresh, Option.map_none]
  have hgenuine : start.Genuine vs signed := h.genuine.1 ⟨validator, hcheck⟩
  have hcast : ∀ v, start.Cast vs (votes ++ [signed]) signed.vote.validator v ↔ v = signed.vote.blockId := by
    intro v
    rw [cast_append]
    constructor
    · rintro (hold | ⟨-, -, rfl⟩)
      · exact absurd hold (h.not_cast hnone hfree v)
      · rfl
    · rintro rfl
      exact .inr ⟨hgenuine, rfl, rfl⟩
  refine ⟨h.slot, ?_, ?_, ?_, ?_, ?_⟩
  · intro a v hv
    rw [valueOf_record] at hv
    split at hv
    · rename_i ha
      exact ha ▸ hmember
    · exact h.member a v hv
  · intro a v
    rw [valueOf_record]
    by_cases ha : signed.vote.validator = a
    · subst ha
      simp only [hcast, if_true, Option.some.injEq]
      constructor
      · rintro rfl
        exact ⟨rfl, fun w hw => hw⟩
      · exact fun hv => hv.1.symm
    · simp only [if_neg ha, cast_append_of_ne ha]
      exact h.held a v
  · intro a
    show s.equivocators.contains a = true ↔ _
    by_cases ha : signed.vote.validator = a
    · subst ha
      simp only [hcast, hfree, Bool.false_eq_true, false_iff, not_exists, not_and]
      rintro v w hne rfl rfl
      exact hne rfl
    · simp only [cast_append_of_ne ha]
      exact h.caught a
  · intro v
    have hlt := weightOf_holders_lt (s.record validator.votingPower signed) vs (· == v)
    rw [weightOf_holders_record hmember hnone, hweight] at hlt ⊢
    rw [powerFor_record]
    split
    · rename_i hv
      simp only [hv, beq_self_eq_true, if_true] at hlt ⊢
      rw [Fin.saturatingAdd_val, h.power v]
      omega
    · rename_i hv
      simp only [beq_iff_eq, hv, if_false, Nat.add_zero]
      exact h.power v
  · have hlt := weightOf_holders_lt (s.record validator.votingPower signed) vs fun _ => true
    rw [weightOf_holders_record hmember hnone, hweight, if_pos rfl] at hlt ⊢
    show (s.totalVoted.saturatingAdd validator.votingPower).val = _
    rw [Fin.saturatingAdd_val, h.total]
    omega

theorem Tallies.withdraw (h : Tallies vs start votes s) {validator : Validator} {existing : SignedVote}
    (hcheck : s.checkVote vs signed = .ok validator) (hheld : s.votes[signed.vote.validator]? = some existing)
    (hother : existing.vote.blockId ≠ signed.vote.blockId) :
    Tallies vs start (votes ++ [signed])
      (s.withdraw validator.votingPower existing ⟨signed.vote.validator, existing, signed⟩) := by
  obtain ⟨hget, -⟩ := checkVote_ok hcheck
  obtain ⟨hvalidator, haddress⟩ := ValidatorSet.get_eq_some.1 hget
  have hmember : signed.vote.validator ∈ vs.electorate.members := ValidatorSet.mem_members.2 ⟨validator, hvalidator, haddress⟩
  have hweight : vs.electorate.weight signed.vote.validator = validator.votingPower.val := by
    rw [← haddress]
    exact congrArg Fin.val (ValidatorSet.powerOf_of_mem hvalidator)
  have hvalue : s.valueOf signed.vote.validator = some existing.vote.blockId := by rw [valueOf, hheld, Option.map_some]
  have hfirst : start.Cast vs (votes ++ [signed]) signed.vote.validator existing.vote.blockId :=
    cast_append.2 (.inl ((h.held _ _).1 hvalue).1)
  have hsecond : start.Cast vs (votes ++ [signed]) signed.vote.validator signed.vote.blockId :=
    cast_append.2 (.inr ⟨h.genuine.1 ⟨validator, hcheck⟩, rfl, rfl⟩)
  refine ⟨h.slot, ?_, ?_, ?_, ?_, ?_⟩
  · intro a v hv
    rw [valueOf_withdraw] at hv
    split at hv
    · cases hv
    · exact h.member a v hv
  · intro a v
    rw [valueOf_withdraw]
    by_cases ha : signed.vote.validator = a
    · subst ha
      simp only [if_true, reduceCtorEq, false_iff, not_and]
      intro _ hall
      exact hother ((hall _ hfirst).trans (hall _ hsecond).symm)
    · simp only [if_neg ha, cast_append_of_ne ha]
      exact h.held a v
  · intro a
    show (s.equivocators.insert signed.vote.validator _).contains a = true ↔ _
    rw [TreeMap.contains_insert]
    by_cases ha : signed.vote.validator = a
    · subst ha
      simp only [Std.ReflCmp.compare_self, beq_self_eq_true, Bool.true_or, true_iff]
      exact ⟨_, _, hother, hfirst, hsecond⟩
    · simp only [beq_iff_eq, Std.compare_eq_iff_eq, Bool.or_eq_true, ha, false_or, cast_append_of_ne ha]
      exact h.caught a
  · intro v
    have hsplit := weightOf_holders_withdraw validator.votingPower ⟨signed.vote.validator, existing, signed⟩
      hmember hvalue (· == v)
    rw [← h.power v, hweight] at hsplit
    rw [powerFor_withdraw]
    split
    · rename_i hv
      simp only [hv, beq_self_eq_true, if_true] at hsplit
      rw [Fin.saturatingSub_val]
      omega
    · rename_i hv
      simp only [beq_iff_eq, hv, if_false, Nat.add_zero] at hsplit
      exact hsplit
  · have hsplit := weightOf_holders_withdraw validator.votingPower ⟨signed.vote.validator, existing, signed⟩
      hmember hvalue fun _ => true
    rw [← h.total, hweight, if_pos rfl] at hsplit
    show (s.totalVoted.saturatingSub validator.votingPower).val = _
    rw [Fin.saturatingSub_val]
    omega

theorem Tallies.deliver (h : Tallies vs start votes s) (signed : SignedVote) :
    Tallies vs start (votes ++ [signed]) (s.deliver vs signed) := by
  have hdelivers := deliver_delivers vs s signed
  generalize s.deliver vs signed = s' at hdelivers
  cases hdelivers with
  | refused hnot =>
    refine h.unchanged fun a v => ?_
    rw [cast_append]
    exact or_iff_left fun hnew => hnot (h.genuine.2 hnew.1)
  | ignored hgenuine hcaught => exact h.ignore hcaught
  | repeated hgenuine hsame =>
    refine h.unchanged fun a v => ?_
    rw [cast_append]
    refine or_iff_left_of_imp ?_
    rintro ⟨-, rfl, rfl⟩
    exact ((h.held _ _).1 hsame).1
  | caught hcheck hheld hother => exact h.withdraw hcheck hheld hother
  | first hcheck hfree hfresh => exact h.record hcheck hfree hfresh

theorem Tallies.deliverAll (h : Tallies vs start votes s) (more : List SignedVote) :
    Tallies vs start (votes ++ more) (s.deliverAll vs more) := by
  induction more generalizing votes s with
  | nil => rwa [List.append_nil]
  | cons signed rest ih =>
    rw [List.append_cons]
    exact ih (h.deliver signed)

theorem Tallies.quorum_unique (h : Tallies vs start votes s) {v w : Option Hash32}
    (hv : vs.hasQuorum (s.powerFor v) = true) (hw : vs.hasQuorum (s.powerFor w) = true) : v = w := by
  have hquorum : ∀ u, vs.hasQuorum (s.powerFor u) = true → vs.electorate.IsQuorum (s.holders vs (· == u)) := by
    intro u hu
    refine ⟨Finset.filter_subset _ _, ?_⟩
    rw [← h.power u]
    exact ValidatorSet.threshold_le_of_hasQuorum hu
  have hnobody : vs.electorate.weightOf ∅ ≤ vs.electorate.tolerance := by simp [Electorate.weightOf]
  obtain ⟨a, hav, haw, -⟩ := (hquorum v hv).exists_common (hquorum w hw) hnobody
  simp only [holders, Finset.mem_filter, Option.any_eq_true, beq_iff_eq] at hav haw
  obtain ⟨-, u, hu, rfl⟩ := hav
  obtain ⟨-, u', hu', rfl⟩ := haw
  exact Option.some.inj (hu.symm.trans hu')

theorem Tallies.valueOf_congr {s' : VoteSet} {votes' : List SignedVote} (h : Tallies vs start votes s)
    (h' : Tallies vs start votes' s') (hperm : votes.Perm votes') (a : Address) : s.valueOf a = s'.valueOf a := by
  ext v
  rw [h.held, h'.held]
  simp only [Cast.perm hperm]

end

end AfroLink.VoteSet
