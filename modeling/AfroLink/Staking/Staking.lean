import AfroLink.Bank.Bank

/-!
# Staking

Bonds are held by the staking module account; unbonding entries leave it when they mature
and slashing destroys what it holds.
-/

namespace AfroLink

def SLASH_EQUIVOCATION_BPS : U128 := 500

inductive StakingError where
  | belowMinimumBond (got min : String)
  | noSuchBond
  | alreadyBonded
  | insufficientBond (requested bonded : String)
  | tooManyUnbondingEntries
  | candidateSetFull
  | nothingMatured
  | noEligibleValidators
  | notEquivocation
  | alreadyJailed
  | zeroAmount
  | bank (e : BankError)
  | state (e : StateError)
deriving DecidableEq, Repr

/-! ## The active set -/

def powerOfStake (bonded : Amount) : U64 :=
  let whole := bonded.units / Amount.SENTE_PER_AFRI
  ⟨min whole (2 ^ 64 - 1), by omega⟩

/-- One pass: every power above the ceiling is brought down to it. -/
def capPass (maxBps : U32) (powers : List U64) : List U64 :=
  let total := (powers.map fun p => p.val).sum
  let ceiling : U64 := ⟨max (min (total * maxBps.val / 10000) (2 ^ 64 - 1)) 1, by omega⟩
  powers.map fun p => min p ceiling

/-- Passes until nothing changes, at most as many as there are powers. -/
def capLoop (maxBps : U32) : Nat → List U64 → List U64
  | 0, powers => powers
  | n + 1, powers =>
    let capped := capPass maxBps powers
    if capped = powers then powers else capLoop maxBps n capped

def capConcentration (powers : List U64) (maxBps : U32) : List U64 :=
  if maxBps = 0 ∨ 10000 ≤ maxBps then powers else capLoop maxBps powers.length powers

def bondLe (a b : Bond) : Bool :=
  powerOfStake b.bonded < powerOfStake a.bonded ||
    (powerOfStake a.bonded == powerOfStake b.bonded && a.operator ≤ b.operator)

section

variable [Crypto]

def stakingAccount : Address := Address.derived .moduleAddress (utf8Bytes "staking")

def activeSet (bonds : List Bond) (params : StakingParams) : Except StakingError ValidatorSet :=
  let eligible := bonds.filter fun b => !b.jailed && params.minBond ≤ b.bonded
  let chosen := (eligible.insertionSort (fun a b => bondLe a b)).take params.maxValidators.val
  let powers := chosen.map fun b => max (powerOfStake b.bonded) 1
  if powers = [] then .error .noEligibleValidators
  else
    let validators := (chosen.zip (capConcentration powers params.maxSingleShareBps)).map fun (b, power) =>
      Validator.new b.publicKey power b.country
    match ValidatorSet.new validators with
    | .ok set => .ok set
    | .error _ => .error .noEligibleValidators

def provesEquivocation (evidence : Equivocation) (set : ValidatorSet) : Bool :=
  let a := evidence.first
  let b := evidence.second
  if a.vote.validator ≠ evidence.validator ∨ b.vote.validator ≠ evidence.validator then false
  else match set.get evidence.validator with
    | none => false
    | some validator =>
      if a.vote.height ≠ b.vote.height ∨ a.vote.round ≠ b.vote.round ∨ a.vote.voteType ≠ b.vote.voteType then false
      else if a.vote.blockId = b.vote.blockId then false
      else a.verifies validator.publicKey && b.verifies validator.publicKey

end

/-! ## Operations -/

namespace Staking

abbrev M (α : Type) := StoreM StakingError α

def corrupt : StateError → StakingError
  | .corrupt _ reason => .state (.corrupt "bond" reason)

/-- `map_err(|_| StakingError::ZeroAmount)?` on amount arithmetic. -/
def orZero {α : Type} (r : Except PrimError α) : M α := liftResult (fun _ => .zeroAmount) r

def bondOf (operator : Address) : M (Option Bond) := getDecoded corrupt (.bond operator)

def unbondingOf (operator : Address) : M (List Unbonding) := do
  return (← getDecoded corrupt (.unbonding operator)).getD []

def candidates : M (List Address) := do
  return (← getDecoded corrupt .bondIndex).getD []

def requireBond (operator : Address) : M Bond := do
  match ← bondOf operator with
  | some b => return b
  | none => throw .noSuchBond

def collectBonds : List Address → M (List Bond)
  | [] => return []
  | operator :: rest => do
    let found ← bondOf operator
    let others ← collectBonds rest
    return found.toList ++ others

def bonds : M (List Bond) := do collectBonds (← candidates)

def writeBond (b : Bond) : M Unit := setEncoded (.bond b.operator) b

def writeQueue (operator : Address) (queue : List Unbonding) : M Unit :=
  if queue.isEmpty then deleteKey (.unbonding operator) else setEncoded (.unbonding operator) queue

def writeIndex (index : List Address) : M Unit := setEncoded .bondIndex index

variable [Crypto] (params : StakingParams)

def currentSet : M ValidatorSet := do
  liftResult id (activeSet (← bonds) params)

def moveStake (src dst : Address) (amount : Amount) : M Unit :=
  mapErr .bank (Bank.transfer src dst .native amount)

def bond (operator : Address) (publicKey : PublicKey) (country : CountryCode) (amount : Amount) : M Unit := do
  if amount.isZero then throw .zeroAmount
  if amount < params.minBond then throw (.belowMinimumBond amount.display params.minBond.display)
  if (← bondOf operator).isSome then throw .alreadyBonded
  let index ← candidates
  if index.length ≥ params.maxCandidates.val then throw .candidateSetFull
  moveStake operator stakingAccount amount
  writeBond (Bond.new operator publicKey country amount)
  writeIndex ((index ++ [operator]).insertionSort (· ≤ ·))

def addStake (operator : Address) (amount : Amount) : M Unit := do
  if amount.isZero then throw .zeroAmount
  let b ← requireBond operator
  moveStake operator stakingAccount amount
  let bonded ← orZero (b.bonded.checkedAdd amount)
  writeBond { b with bonded }

def unbond (operator : Address) (amount : Amount) (height : Height) (now : Timestamp) : M Unit := do
  if amount.isZero then throw .zeroAmount
  let b ← requireBond operator
  if amount > b.bonded then throw (.insufficientBond amount.display b.bonded.display)
  let queue ← unbondingOf operator
  if queue.length ≥ params.maxUnbondingEntries.val then throw .tooManyUnbondingEntries
  let bonded ← orZero (b.bonded.checkedSub amount)
  writeBond { b with bonded }
  writeQueue operator (queue ++ [⟨amount, height, Fin.saturatingAdd now params.unbondingMs⟩])

def sumEntries : List Unbonding → Amount → Except PrimError Amount
  | [], total => .ok total
  | e :: rest, total => (total.checkedAdd e.amount).bind (sumEntries rest)

def withdraw (operator : Address) (now : Timestamp) : M Amount := do
  let queue ← unbondingOf operator
  let matured := queue.filter fun e => e.matured now
  if matured.isEmpty then throw .nothingMatured
  let total ← orZero (sumEntries matured 0)
  writeQueue operator (queue.filter fun e => !e.matured now)
  if !total.isZero then moveStake stakingAccount operator total
  return total

def fraction (amount : Amount) (bps : U128) : Amount :=
  ⟨(Fin.saturatingMul amount bps).val / 10000,
    Nat.lt_of_le_of_lt (Nat.div_le_self _ _) (Fin.saturatingMul amount bps).isLt⟩

/-- Slash every entry still bonded at the infraction; returns the queue left and the sum taken. -/
def slashQueue (infractionHeight : Height) :
    List Unbonding → Amount → Except PrimError (List Unbonding × Amount)
  | [], taken => .ok ([], taken)
  | e :: rest, taken =>
    if !e.covers infractionHeight then do
      let (rest, taken) ← slashQueue infractionHeight rest taken
      return (e :: rest, taken)
    else do
      let take := fraction e.amount SLASH_EQUIVOCATION_BPS
      let amount ← e.amount.checkedSub take
      let taken ← taken.checkedAdd take
      let (rest, taken) ← slashQueue infractionHeight rest taken
      return ({ e with amount } :: rest, taken)

def slash (operator : Address) (infractionHeight nowHeight : Height) : M Amount := do
  let b ← requireBond operator
  if b.jailed then throw .alreadyJailed
  let fromBond := fraction b.bonded SLASH_EQUIVOCATION_BPS
  let queue ← unbondingOf operator
  let (queue, fromQueue) ← orZero (slashQueue infractionHeight queue 0)
  let total ← orZero (fromBond.checkedAdd fromQueue)
  let bonded ← orZero (b.bonded.checkedSub fromBond)
  writeBond { b with bonded, jailed := true, jailedAt := some nowHeight }
  writeQueue operator queue
  if !total.isZero then mapErr .bank (Bank.slashNative stakingAccount total)
  return total

def slashEquivocation (evidence : Equivocation) (set : ValidatorSet) (height : Height) : M Amount := do
  if !provesEquivocation evidence set then throw .notEquivocation
  slash evidence.validator evidence.first.vote.height height

end Staking

end AfroLink
