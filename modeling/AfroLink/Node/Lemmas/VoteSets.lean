import AfroLink.Consensus.Lemmas.Tally
import AfroLink.Node.Lemmas.Moves

/-!
# The vote sets of a height

A set is made as soon as a vote names its round, before the vote is looked at.
-/

open Std (TreeMap)

namespace AfroLink

variable [Crypto]

/-- The vote carries the signature of the member it names. -/
def ValidatorSet.signs (vs : ValidatorSet) (signed : SignedVote) : Bool :=
  (vs.get signed.vote.validator).any fun v => signed.verifies v.publicKey

theorem VoteSet.add_of_forged {vs : ValidatorSet} {signed : SignedVote} (h : vs.signs signed = false) (s : VoteSet) :
    ∃ e, s.add vs signed = .error e := by
  cases hcheck : s.checkVote vs signed with
  | error e =>
    refine ⟨e, ?_⟩
    rw [add, hcheck]
  | ok validator =>
    obtain ⟨hget, hverifies⟩ := checkVote_ok hcheck
    simp [ValidatorSet.signs, hget, hverifies] at h

omit [Crypto] in
theorem toList_insert_of_getElem? {α β : Type} [Ord α] [Std.TransOrd α] [Std.LawfulEqOrd α] {t : TreeMap α β} {k : α}
    {v : β} (h : t[k]? = some v) : (t.insert k v).toList = t.toList := by
  refine (TreeMap.Equiv.of_forall_constGet?_eq fun k' => ?_).toList_eq
  show (t.insert k v)[k']? = t[k']?
  rw [TreeMap.getElem?_insert]
  split
  · rename_i heq
    rw [← Std.LawfulEqOrd.eq_of_compare heq, h]
  · rfl

def Action.sent : Action → Option SignedVote
  | .broadcastVote signed => some signed
  | _ => none

namespace Node

/-- There is a set for the votes of this kind in the round. -/
def Knows (n : Node) (voteType : VoteType) (round : Round) : Prop := (n.voteSets voteType).contains round = true

/-- `n'` is `n` in every field, the vote sets compared entry by entry. -/
def Alike (n n' : Node) : Prop :=
  n' = { n with prevotes := n'.prevotes, precommits := n'.precommits } ∧
  ∀ voteType, (n'.voteSets voteType).toList = (n.voteSets voteType).toList

omit [Crypto] in
theorem Alike.refl (n : Node) : n.Alike n := ⟨rfl, fun _ => rfl⟩

variable {round : Round} {n n' : Node} {signed : SignedVote} {votes : List SignedVote}

omit [Crypto] in
theorem Alike.knows (h : n.Alike n') {voteType : VoteType} (hk : n'.Knows voteType round) : n.Knows voteType round := by
  have hequiv := TreeMap.equiv_iff_toList_eq.2 (h.2 voteType)
  rwa [Knows, ← hequiv.contains_eq]

omit [Crypto] in
@[simp] theorem voteSets_withVoteSets (n : Node) (sets : TreeMap Round VoteSet) (voteType other : VoteType) :
    (n.withVoteSets sets voteType).voteSets other = if voteType = other then sets else n.voteSets other := by
  cases voteType <;> cases other <;> rfl

theorem fileVote_knows {voteType : VoteType} : (n.fileVote signed).1.Knows voteType round ↔
      signed.vote.voteType = voteType ∧ signed.vote.round = round ∨ n.Knows voteType round := by
  rw [fileVote_fst, Knows, voteSets_withVoteSets]
  split
  · rename_i htype
    subst htype
    rw [TreeMap.contains_insert]
    simp [Knows]
  · rename_i htype
    simp [htype, Knows]

/-! ## Forged votes -/

theorem fileVote_of_forged (h : n.validators.signs signed = false) : n.fileVote signed =
      (n.withVoteSets ((n.voteSets signed.vote.voteType).insert signed.vote.round
        (n.voteSetAt signed.vote.voteType signed.vote.round)) signed.vote.voteType, none) := by
  obtain ⟨e, he⟩ := VoteSet.add_of_forged h (n.voteSetAt signed.vote.voteType signed.vote.round)
  simp [fileVote, he]

theorem fileVote_alike (h : n.validators.signs signed = false)
    (hk : n.Knows signed.vote.voteType signed.vote.round) : n.Alike (n.fileVote signed).1 := by
  rw [fileVote_of_forged h]
  refine ⟨by cases signed.vote.voteType <;> rfl, fun voteType => ?_⟩
  rw [voteSets_withVoteSets]
  split
  · rename_i htype
    subst htype
    refine toList_insert_of_getElem? ?_
    obtain ⟨set, hset⟩ := Option.isSome_iff_exists.1 (TreeMap.isSome_getElem?_eq_contains.trans hk)
    rw [voteSetAt, TreeMap.getD_eq_getD_getElem?, hset, Option.getD_some]
  · rfl

variable [StateRoot]

theorem handle_of_forged (h : n.validators.signs signed = false) : n.handle (.vote signed) =
      (if n.decided ∨ signed.vote.height ≠ n.height then n else (n.fileVote signed).1, []) := by
  have hfile := fileVote_of_forged h
  cases htype : signed.vote.voteType <;>
    · simp only [handle, onVote, htype, onPrevote, onPrecommit, onVoteThen]
      split
      · rfl
      · rw [hfile]
        rfl

/-! ## Where the sets come from -/

def Input.delivered : Input → List SignedVote
  | .event (.vote signed) => [signed]
  | _ => []

omit [StateRoot] in
/-- The rounds of the node's height for which a member's vote is among these. -/
def signedRounds (n : Node) (votes : List SignedVote) : Finset Round :=
  ((votes.filter fun v => v.vote.height = n.height ∧ n.validators.signs v = true).map (·.vote.round)).toFinset

omit [StateRoot] in
theorem mem_signedRounds : round ∈ n.signedRounds votes ↔
      ∃ v ∈ votes, v.vote.height = n.height ∧ n.validators.signs v = true ∧ v.vote.round = round := by
  simp [signedRounds, and_assoc]

def Sourced (n : Node) (votes : List SignedVote) : Prop :=
  ∀ voteType round, n.Knows voteType round → round ∈ n.signedRounds votes

omit [StateRoot] in
theorem Sourced.size_le (h : n.Sourced votes) :
    n.prevotes.size + n.precommits.size ≤ 2 * (n.signedRounds votes).card := by
  have hsize : ∀ voteType, (n.voteSets voteType).size ≤ (n.signedRounds votes).card := by
    intro voteType
    rw [← TreeMap.length_keys, ← List.toFinset_card_of_nodup TreeMap.nodup_keys]
    refine Finset.card_le_card fun round hround => h voteType round ?_
    exact TreeMap.contains_iff_mem.2 (TreeMap.mem_keys.1 (List.mem_toFinset.1 hround))
  have hprevotes := hsize .prevote
  have hprecommits := hsize .precommit
  simp only [voteSets] at hprevotes hprecommits
  omega

omit [StateRoot] in
theorem Sourced.mono {votes' : List SignedVote} (h : n.Sourced votes) (hsub : votes ⊆ votes') : n.Sourced votes' := by
  intro voteType round hk
  obtain ⟨v, hv, hrest⟩ := mem_signedRounds.1 (h voteType round hk)
  exact mem_signedRounds.2 ⟨v, hsub hv, hrest⟩

omit [StateRoot] in
theorem Sourced.congr (h : n.Sourced votes)
    (hsets : ∀ voteType, n'.voteSets voteType = n.voteSets voteType) (hheight : n'.height = n.height)
    (hset : n'.validators = n.validators) : n'.Sourced votes := by
  intro voteType round hk
  rw [Knows, hsets] at hk
  obtain ⟨v, hv, hrest⟩ := mem_signedRounds.1 (h voteType round hk)
  refine mem_signedRounds.2 ⟨v, hv, ?_⟩
  rwa [hheight, hset]

omit [StateRoot] in
theorem Sourced.fileVote (h : n.Sourced votes)
    (hsigned : signed.vote.round ∈ n.signedRounds votes ∨ n.Knows signed.vote.voteType signed.vote.round) :
    (n.fileVote signed).1.Sourced votes := by
  intro voteType round hk
  have hround : round ∈ n.signedRounds votes := by
    rcases fileVote_knows.1 hk with ⟨rfl, rfl⟩ | hk
    · exact hsigned.elim id (h _ _)
    · exact h voteType round hk
  obtain ⟨v, hv, hrest⟩ := mem_signedRounds.1 hround
  refine mem_signedRounds.2 ⟨v, hv, ?_⟩
  rwa [fileVote_proj (·.height) n signed fun _ _ => rfl, fileVote_proj (·.validators) n signed fun _ _ => rfl]

def IsValidator (n : Node) : Prop :=
  ∃ v ∈ n.validators.validators, v.address = n.address ∧ v.publicKey = n.key.publicKey

/-- A vote that is forged comes after the first vote of its round. -/
def Expects (n : Node) : Input → Prop
  | .event (.vote signed) => n.validators.signs signed = false →
      n.decided = true ∨ signed.vote.height ≠ n.height ∨ n.Knows signed.vote.voteType signed.vote.round
  | _ => True

omit [StateRoot] in
theorem IsValidator.congr (h : n.IsValidator) (hconfig : n'.config = n.config) : n'.IsValidator := by
  simp only [config, Prod.mk.injEq] at hconfig
  obtain ⟨-, hkey, hset⟩ := hconfig
  unfold IsValidator address
  rw [hkey, hset]
  exact h

section

variable (hsign : ∀ (sk : SecretKey) (domain : Domain) (message : Bytes),
  sk.publicKey.verify domain message (sk.sign domain message) = true)

variable {n : Node} {votes : List SignedVote}

omit [StateRoot] in
include hsign in
theorem IsValidator.signs_ownVote (h : n.IsValidator) (voteType : VoteType) (blockId : Option Hash32) :
    n.validators.signs (n.ownVote voteType blockId) = true := by
  obtain ⟨v, hv, haddress, hkey⟩ := h
  have hget : n.validators.get (n.ownVote voteType blockId).vote.validator = some v :=
    ValidatorSet.get_eq_some.2 ⟨hv, haddress⟩
  rw [ValidatorSet.signs, hget, Option.any_some, hkey]
  exact hsign _ _ _

omit [StateRoot] in
include hsign in
theorem Sourced.cast (h : n.Sourced votes) (hself : n.IsValidator) (voteType : VoteType) (blockId : Option Hash32) :
    (n.cast voteType blockId).1.Sourced (votes ++ (n.cast voteType blockId).2.filterMap Action.sent) := by
  rcases cast_cases n voteType blockId with ⟨signing, refused, -, hcast⟩ | ⟨signing, -, -, hcast⟩
  · rw [hcast]
    exact (h.congr (fun _ => rfl) rfl rfl).mono (List.subset_append_left ..)
  · rw [hcast]
    have hafter : Sourced { n with signing } (votes ++ [n.ownVote voteType blockId]) :=
      (h.congr (fun _ => rfl) rfl rfl).mono (List.subset_append_left ..)
    show (filed { n with signing } (n.ownVote voteType blockId)).Sourced (votes ++ [n.ownVote voteType blockId])
    unfold filed
    split
    · exact hafter
    · refine hafter.fileVote (.inl (mem_signedRounds.2 ⟨n.ownVote voteType blockId, by simp, rfl, ?_, rfl⟩))
      exact hself.signs_ownVote hsign voteType blockId

include hsign in
theorem Move.sourced {n₀ n' : Node} {i : Input} {as : List Action}
    (hmove : Move n₀ i n as n') (h : n.Sourced votes) (hself : n.IsValidator) (hi : n₀.Expects i)
    (hdelivered : i.delivered ⊆ votes) : n'.Sourced (votes ++ as.filterMap Action.sent) := by
  -- every move but the casts and the arrival of a vote leaves the sets alone or drops them
  have hsame : ∀ {m : Node}, (∀ voteType, m.voteSets voteType = n.voteSets voteType) → m.height = n.height →
      m.validators = n.validators → m.Sourced (votes ++ as.filterMap Action.sent) := fun hsets hheight hset =>
    (h.congr hsets hheight hset).mono (List.subset_append_left ..)
  have hnone : ∀ {m : Node}, (∀ voteType, m.voteSets voteType = ∅) → m.Sourced (votes ++ as.filterMap Action.sent) := by
    intro m hsets voteType round hk
    simp [Knows, hsets] at hk
  have hcast : ∀ m : Node, (∀ voteType, m.voteSets voteType = n.voteSets voteType) → m.height = n.height →
      m.config = n.config → ∀ voteType value,
      (m.cast voteType value).1.Sourced (votes ++ (m.cast voteType value).2.filterMap Action.sent) :=
    fun m hsets hheight hconfig voteType value =>
      Sourced.cast hsign (h.congr hsets hheight (congrArg (·.2.2) hconfig)) (hself.congr hconfig) voteType value
  cases hmove with
  | quiet hcore =>
    obtain ⟨_, _, _, _, _, _, rfl⟩ := hcore
    exact hsame (fun _ => rfl) rfl rfl
  | prevote => exact hcast (n.adopt _) (fun _ => rfl) rfl rfl _ _
  | prevoteNil => exact hcast (n.atStep .prevote) (fun _ => rfl) rfl rfl _ _
  | precommitNil => exact hcast (n.atStep .precommit) (fun _ => rfl) rfl rfl _ _
  | lock => exact hcast (n.locked _) (fun _ => rfl) rfl rfl _ _
  | @receive signed hinput hd hh =>
    subst hinput
    refine Sourced.mono (h.fileVote ?_) (List.subset_append_left ..)
    cases hsigns : n.validators.signs signed with
    | true => exact .inl (mem_signedRounds.2 ⟨signed, hdelivered (by simp [Input.delivered]), hh, hsigns, rfl⟩)
    | false =>
      rcases hi hsigns with hdecided | hother | hk
      · simp [hd] at hdecided
      · exact absurd hh hother
      · exact .inr hk
  | propose => exact hsame (fun _ => rfl) rfl rfl
  | nextRound => exact hsame (fun _ => rfl) rfl rfl
  | commit => exact hnone fun voteType => by cases voteType <;> rfl
  | sync => exact hnone fun voteType => by cases voteType <;> rfl

include hsign in
theorem step_sourced {i : Input} (h : n.Sourced votes) (hself : n.IsValidator) (hi : n.Expects i) :
    (n.step i).1.Sourced (votes ++ i.delivered ++ (n.step i).2.filterMap Action.sent) := by
  have hstep : ∀ hist m as m', (m.Sourced (votes ++ i.delivered ++ hist.filterMap Action.sent) ∧ m.IsValidator) →
      Move n i m as m' →
      m'.Sourced (votes ++ i.delivered ++ (hist ++ as).filterMap Action.sent) ∧ m'.IsValidator := by
    rintro hist m as m' ⟨hm, hmself⟩ hmove
    rw [List.filterMap_append, ← List.append_assoc]
    refine ⟨hmove.sourced hsign hm hmself hi ?_, hmself.congr hmove.config_eq⟩
    exact fun v hv => List.mem_append_left _ (List.mem_append_right _ hv)
  refine ((step_moves n i).invariant_nil
    (I := fun hist m => m.Sourced (votes ++ i.delivered ++ hist.filterMap Action.sent) ∧ m.IsValidator) hstep ?_).1
  exact ⟨h.mono fun v hv => by simp [hv], hself⟩

include hsign in
theorem run_sourced {inputs : List Input} (h : n.Sourced votes)
    (hself : n.IsValidator) (hmeet : AllMeet Expects n inputs) : (n.run inputs).1.Sourced
      (votes ++ inputs.flatMap Input.delivered ++ (n.run inputs).2.filterMap Action.sent) := by
  induction inputs generalizing n votes with
  | nil => exact h.mono fun v hv => by simp [hv]
  | cons i rest ih =>
    have hnext := ih (step_sourced hsign h hself hmeet.1) (hself.congr (n.step_config i)) hmeet.2
    refine hnext.mono fun v hv => ?_
    simp only [run, List.flatMap_cons, List.filterMap_append, List.mem_append] at hv ⊢
    tauto

end

end Node

end AfroLink
