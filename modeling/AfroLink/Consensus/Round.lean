import AfroLink.Consensus.Vote

/-!
# The round state machine

Locks, valid values and the three decisions of a round.
-/

namespace AfroLink

inductive Step where
  | propose | prevote | precommit
deriving DecidableEq

def Step.rank : Step → Nat
  | propose => 0
  | prevote => 1
  | precommit => 2

inductive Decision where
  | prevote (blockId : Option Hash32)
  | precommit (blockId : Option Hash32)
  | commit (blockId : Hash32)
  | nextRound (round : Round)
  | wait
deriving DecidableEq

structure RoundState where
  height : Height
  round : Round
  step : Step
  lockedValue : Option Hash32
  lockedRound : Option Round
  validValue : Option Hash32
  validRound : Option Round
deriving DecidableEq

namespace RoundState

def new (height : Height) : RoundState :=
  { height, round := 0, step := .propose, lockedValue := none, lockedRound := none,
    validValue := none, validRound := none }

def isLocked (rs : RoundState) : Bool := rs.lockedValue.isSome

def decidePrevote (rs : RoundState) (proposal : Option Hash32) (proposalValidRound : Option Round)
    (proposalIsValid : Bool) : Decision :=
  match proposal with
  | none => .prevote none
  | some value =>
    if !proposalIsValid then .prevote none
    else match rs.lockedValue, rs.lockedRound with
      | none, _ => .prevote (some value)
      | some locked, lockedRound =>
        if locked = value then .prevote (some value)
        else match lockedRound with
          -- the proposer's own `valid_round` is what releases the lock
          | some lockedRound =>
            match proposalValidRound with
            | some pvr => if pvr > lockedRound then .prevote (some value) else .prevote none
            | none => .prevote none
          | none => .prevote none

theorem decidePrevote_eq (rs : RoundState) (value : Hash32) (pvr : Option Round) (valid : Bool) :
    ∃ answer, rs.decidePrevote (some value) pvr valid = .prevote answer := by
  unfold decidePrevote
  simp only
  split_ifs
  · exact ⟨_, rfl⟩
  · split
    · exact ⟨_, rfl⟩
    · split_ifs
      · exact ⟨_, rfl⟩
      · split
        · split
          · split_ifs <;> exact ⟨_, rfl⟩
          · exact ⟨_, rfl⟩
        · exact ⟨_, rfl⟩

theorem decidePrevote_eq_some {rs : RoundState} {value : Hash32} {pvr : Option Round} {valid : Bool} {answer : Hash32}
    (h : rs.decidePrevote (some value) pvr valid = .prevote (some answer)) :
    valid = true ∧ answer = value ∧
      (rs.lockedValue = none ∨ rs.lockedValue = some value ∨
        ∃ lockedRound p, rs.lockedRound = some lockedRound ∧ pvr = some p ∧ lockedRound < p) := by
  unfold decidePrevote at h
  simp only at h
  split_ifs at h with hvalid
  · cases h
  · simp only [Bool.not_eq_true', Bool.not_eq_false] at hvalid
    split at h
    · rename_i hnone
      cases h
      exact ⟨hvalid, rfl, .inl hnone⟩
    · rename_i locked hlocked
      split_ifs at h with heq
      · cases h
        exact ⟨hvalid, rfl, .inr (.inl (heq ▸ hlocked))⟩
      · split at h
        · rename_i lockedRound hround
          split at h
          · rename_i p
            split_ifs at h with hlt
            · cases h
              exact ⟨hvalid, rfl, .inr (.inr ⟨lockedRound, p, hround, rfl, hlt⟩)⟩
            · cases h
          · cases h
        · cases h

def decidePrecommit (rs : RoundState) (prevoteQuorum : Option (Option Hash32)) : RoundState × Decision :=
  match prevoteQuorum with
  | some (some value) =>
    ({ rs with lockedValue := some value, lockedRound := some rs.round, validValue := some value,
               validRound := some rs.round, step := .precommit }, .precommit (some value))
  | some none =>
    ({ rs with lockedValue := none, lockedRound := none, step := .precommit }, .precommit none)
  | none => ({ rs with step := .precommit }, .precommit none)

def advanceTo (rs : RoundState) (round : Round) : RoundState := { rs with round, step := .propose }

def decideCommit (rs : RoundState) (precommitQuorum : Option (Option Hash32)) : RoundState × Decision :=
  match precommitQuorum with
  | some (some value) => (rs, .commit value)
  | _ => (rs.advanceTo rs.round.next, .nextRound rs.round.next)

def valueToPropose (rs : RoundState) (fresh : Hash32) : Hash32 × Option Round :=
  match rs.validValue with
  | some v => (v, rs.validRound)
  | none => (fresh, none)

end RoundState

end AfroLink
