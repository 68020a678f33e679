import AfroLink.Node.Lemmas.Moves

/-!
# The valid value

The value a node would propose again is one it has seen a quorum of prevotes for.
-/

open Std (TreeMap)

namespace AfroLink

namespace Node

variable [Crypto]

/-- The valid value, its round and the height are the same. -/
structure SameValid (n n' : Node) : Prop where
  value : n'.roundState.validValue = n.roundState.validValue
  round : n'.roundState.validRound = n.roundState.validRound
  height : n'.height = n.height

def validView (n : Node) : RoundState × TreeMap Round VoteSet × ValidatorSet × Height :=
  ({ n.roundState with round := 0, step := .propose }, n.prevotes, n.validators, n.height)

/-- The prevotes and the valid value are left alone, or dropped with the height. -/
def Settles (n n' : Node) : Prop := n'.validView = n.validView ∨ n'.roundState.validValue = none

/-- Where the valid value of `n'` comes from: it is that of `n`, or there is a quorum for it. -/
inductive Vouched (n n' : Node) : Prop where
  | same (h : SameValid n n')
  | none (h : n'.roundState.validValue = none)
  | quorum {v : Hash32} {r : Round} (value : n'.roundState.validValue = some v)
      (round : n'.roundState.validRound = some r) (held : n'.quorumAt .prevote r = some (some v))
      (height : n'.height = n.height)

section

omit [Crypto]

variable {n m n' : Node}

theorem SameValid.of_view (h : n'.validView = n.validView) : SameValid n n' := by
  simp only [validView, Prod.mk.injEq, RoundState.mk.injEq] at h
  exact ⟨h.1.2.2.2.2.2.1, h.1.2.2.2.2.2.2, h.2.2.2⟩

theorem quorumAt_of_view (h : n'.validView = n.validView) (r : Round) :
    n'.quorumAt .prevote r = n.quorumAt .prevote r := by
  simp only [validView, Prod.mk.injEq] at h
  simp only [quorumAt, voteSets, h.2.1, h.2.2.1]

theorem SameCore.view (h : SameCore n n') : n'.validView = n.validView := by
  obtain ⟨_, _, _, _, _, _, rfl⟩ := h
  rfl

theorem SameValid.vouched (h : SameValid n m) (h' : Vouched m n') : Vouched n n' := by
  cases h' with
  | same h' => exact .same ⟨h'.value.trans h.value, h'.round.trans h.round, h'.height.trans h.height⟩
  | none h' => exact .none h'
  | quorum value round held height => exact .quorum value round held (height.trans h.height)

theorem Vouched.settles (h : Vouched n m) (h' : Settles m n') : Vouched n n' := by
  rcases h' with hview | hnone
  · have hsame := SameValid.of_view hview
    cases h with
    | same h => exact h.vouched (.same hsame)
    | none h => exact .none (hsame.value.trans h)
    | quorum value round held height =>
      refine .quorum (hsame.value.trans value) (hsame.round.trans round) ?_ (hsame.height.trans height)
      rwa [quorumAt_of_view hview]
  · exact .none hnone

end

variable {n n₀ n' : Node} {i : Input} {as : List Action}

theorem fileVote_sameValid (n : Node) (signed : SignedVote) : SameValid n (n.fileVote signed).1 where
  value := fileVote_proj (·.roundState.validValue) n signed fun _ _ => rfl
  round := fileVote_proj (·.roundState.validRound) n signed fun _ _ => rfl
  height := fileVote_proj (·.height) n signed fun _ _ => rfl

theorem SameValid.cast (h : SameValid n n') (voteType : VoteType) (blockId : Option Hash32) :
    SameValid n (n'.cast voteType blockId).1 where
  value := (cast_proj (·.roundState.validValue) n' voteType blockId fun _ _ _ _ _ => rfl).trans h.value
  round := (cast_proj (·.roundState.validRound) n' voteType blockId fun _ _ _ _ _ => rfl).trans h.round
  height := (cast_proj (·.height) n' voteType blockId fun _ _ _ _ _ => rfl).trans h.height

theorem cast_precommit_view (n : Node) (blockId : Option Hash32) :
    (n.cast .precommit blockId).1.validView = n.validView := by
  obtain ⟨signing, refused, -, h⟩ | ⟨signing, -, -, h⟩ := cast_cases n .precommit blockId
  · rw [h]
    rfl
  · rw [h, filed]
    split
    · rfl
    · rw [fileVote_fst]
      rfl

variable [StateRoot]

theorem Move.vouched (h : Move n₀ i n as n') (hn : Vouched n₀ n) : Vouched n₀ n' := by
  cases h with
  | quiet hcore => exact hn.settles (.inl hcore.view)
  | prevote hpre | prevoteNil _ hpre =>
    have hsame : SameValid n₀ n := .of_view hpre.view
    refine .same (.cast ?_ _ _)
    exact ⟨hsame.value, hsame.round, hsame.height⟩
  | precommitNil => exact hn.settles (.inl (cast_precommit_view _ _))
  | receive => exact .same (fileVote_sameValid _ _)
  | @lock _ quorum hpre _ hq =>
    obtain ⟨_, -, -, -, hstate, hheight⟩ := hpre
    have hlocked : Vouched n₀ (n.locked quorum) := by
      cases quorum with
      | none =>
        -- a quorum for nil releases the lock and leaves the valid value
        exact .same ⟨congrArg (·.validValue) hstate, congrArg (·.validRound) hstate, hheight⟩
      | some value => exact .quorum (r := n.round) rfl rfl hq hheight
    exact hlocked.settles (.inl (cast_precommit_view _ _))
  | propose | nextRound => exact hn.settles (.inl rfl)
  | commit | sync => exact .none rfl

theorem step_vouched (n : Node) (i : Input) : Vouched n (n.step i).1 :=
  (step_moves n i).preserves (fun _ _ _ h hmove => hmove.vouched h) (.same ⟨rfl, rfl, rfl⟩)

/-! ## Runs -/

theorem run_append (n : Node) (inputs later : List Input) :
    (n.run (inputs ++ later)).1 = ((n.run inputs).1.run later).1 := by
  induction inputs generalizing n with
  | nil => rfl
  | cons i rest ih => exact ih (n.step i).1

/-- At some point of the run, in the height it is in now, the node had a quorum of prevotes for `v` in round `r`. -/
def HeldQuorum (n : Node) (inputs : List Input) (r : Round) (v : Hash32) : Prop :=
  ∃ before after, inputs = before ++ after ∧ (n.run before).1.height = (n.run inputs).1.height ∧
    (n.run before).1.quorumAt .prevote r = some (some v)

theorem run_heldQuorum (hstart : n.roundState.validValue = none) (inputs : List Input) {v : Hash32}
    (h : (n.run inputs).1.roundState.validValue = some v) :
    ∃ r, (n.run inputs).1.roundState.validRound = some r ∧ n.HeldQuorum inputs r v := by
  induction inputs using List.reverseRecOn with
  | nil => cases hstart.symm.trans h
  | append_singleton inputs i ih =>
    have hlast : (n.run (inputs ++ [i])).1 = ((n.run inputs).1.step i).1 := run_append n inputs [i]
    have hstep := (n.run inputs).1.step_vouched i
    rw [← hlast] at hstep
    cases hstep with
    | same hsame =>
      obtain ⟨r, hr, before, after, hsplit, hheight, hquorum⟩ := ih (hsame.value.symm.trans h)
      refine ⟨r, hsame.round.trans hr, before, after ++ [i], ?_, hheight.trans hsame.height.symm, hquorum⟩
      rw [hsplit, List.append_assoc]
    | none hnone => cases hnone.symm.trans h
    | @quorum w r value round held height =>
      obtain rfl : w = v := Option.some.inj (value.symm.trans h)
      exact ⟨r, round, inputs ++ [i], [], by simp, rfl, held⟩

end Node

end AfroLink
