import AfroLink.Alias.Types

/-!
# Councils, chain parameters and proposals
-/

namespace AfroLink

/-! ## Councils -/

def MAX_SEATS : Nat := 32
def MIN_COUNCIL_THRESHOLD_BPS : U32 := 6667

structure Seat where
  holder : Address
  weight : U32
  country : CountryCode
deriving DecidableEq

inductive CouncilError where
  | empty
  | tooManySeats (n : Nat)
  | unsortedSeats
  | zeroWeight
  | threshold (bps : U32)
  | countryConcentration (country : CountryCode) (found cap : Nat)
deriving DecidableEq

def Council.violation (seats : List Seat) (thresholdBps : U32) : Option CouncilError :=
  if seats = [] then some .empty
  else if seats.length > MAX_SEATS then some (.tooManySeats seats.length)
  else if ¬ seats.IsChain (fun a b => a.holder < b.holder) then some .unsortedSeats
  else if seats.any (·.weight == 0) then some .zeroWeight
  else if ¬ (MIN_COUNCIL_THRESHOLD_BPS ≤ thresholdBps ∧ thresholdBps ≤ 10000) then some (.threshold thresholdBps)
  else none

structure Council where
  seats : List Seat
  thresholdBps : U32
  wf : Council.violation seats thresholdBps = none
deriving DecidableEq

namespace Council

def totalWeight (c : Council) : Nat := (c.seats.map fun s => s.weight.val).sum

def weightOf (c : Council) (account : Address) : U32 :=
  match c.seats.find? (·.holder == account) with
  | some s => s.weight
  | none => 0

def isSeated (c : Council) (account : Address) : Bool := c.weightOf account > 0

def reached (c : Council) (weight : Nat) : Bool := c.totalWeight * c.thresholdBps.val ≤ weight * 10000

def countryLe (a b : CountryCode) : Bool :=
  a.bytes.1 < b.bytes.1 || (a.bytes.1 == b.bytes.1 && a.bytes.2 ≤ b.bytes.2)

def countries (c : Council) : List CountryCode :=
  ((c.seats.map (·.country)).insertionSort (fun a b => countryLe a b)).destutter (· ≠ ·)

def shareBps (c : Council) (country : CountryCode) : Nat :=
  let held := ((c.seats.filter (·.country == country)).map fun s => s.weight.val).sum
  (held * 10000 + c.totalWeight - 1) / c.totalWeight

def heaviestCountry (c : Council) : Option (CountryCode × Nat) :=
  if c.totalWeight = 0 then none
  else c.countries.foldl (fun worst country =>
    let bps := c.shareBps country
    match worst with
    | some (_, w) => if bps > w then some (country, bps) else worst
    | none => some (country, bps)) none

def checkConcentration (c : Council) (capBps : U32) : Except CouncilError Unit :=
  match c.heaviestCountry with
  | some (country, found) =>
    if found > capBps.val then .error (.countryConcentration country found capBps.val) else .ok ()
  | none => .ok ()

end Council

/-! ## Parameters -/

def UNBONDING_MS : U64 := 1814400000
def REBIND_DELAY_BLOCKS : U64 := 259200
def MIN_REBIND_DELAY_BLOCKS : U64 := 86400
def MIN_VOTING_PERIOD_BLOCKS : U64 := 3600
def MIN_TIMELOCK_BLOCKS : U64 := 3600
def MAX_COUNCIL_COUNTRY_SHARE_BPS : U32 := 3333
def MIN_VALIDATORS : U32 := 4

/-- The counts are stored and travel as `u32`. -/
structure StakingParams where
  minBond : Amount := 10000000000000
  maxValidators : U32 := 100
  maxSingleShareBps : U32 := 1000
  maxCandidates : U32 := 1000
  maxUnbondingEntries : U32 := 16
  unbondingMs : U64 := UNBONDING_MS
deriving DecidableEq

inductive ParamError where
  | unbondingTooShort (got : U64)
  | rebindDelayTooShort (got : U64)
  | votingPeriodTooShort (got : U64)
  | timelockTooShort (got : U64)
  | councilCapOutOfRange (got : U32)
  | councilCapWouldLoosen (got current : U32)
  | validatorSetTooSmall (got : U32)
  | candidatesBelowValidators (candidates validators : U32)
  | zero (what : String)
  | validatorCapOutOfRange (got : U32)
deriving DecidableEq, Repr

structure ChainParams where
  staking : StakingParams := {}
  rebindDelayBlocks : U64 := REBIND_DELAY_BLOCKS
  votingPeriodBlocks : U64 := 259200
  timelockBlocks : U64 := 172800
  maxCouncilCountryShareBps : U32 := MAX_COUNCIL_COUNTRY_SHARE_BPS
deriving DecidableEq

namespace ChainParams

def validate (p : ChainParams) : Except ParamError Unit :=
  if p.staking.unbondingMs < UNBONDING_MS then .error (.unbondingTooShort p.staking.unbondingMs)
  else if p.rebindDelayBlocks < MIN_REBIND_DELAY_BLOCKS then .error (.rebindDelayTooShort p.rebindDelayBlocks)
  else if p.votingPeriodBlocks < MIN_VOTING_PERIOD_BLOCKS then .error (.votingPeriodTooShort p.votingPeriodBlocks)
  else if p.timelockBlocks < MIN_TIMELOCK_BLOCKS then .error (.timelockTooShort p.timelockBlocks)
  else if ¬ (1 ≤ p.maxCouncilCountryShareBps ∧ p.maxCouncilCountryShareBps ≤ 10000) then
    .error (.councilCapOutOfRange p.maxCouncilCountryShareBps)
  else if p.staking.minBond.isZero then .error (.zero "the minimum bond")
  else if p.staking.maxUnbondingEntries = 0 then .error (.zero "the unbonding entry limit")
  else if p.staking.maxValidators < MIN_VALIDATORS then .error (.validatorSetTooSmall p.staking.maxValidators)
  else if p.staking.maxCandidates < p.staking.maxValidators then
    .error (.candidatesBelowValidators p.staking.maxCandidates p.staking.maxValidators)
  else if ¬ (1 ≤ p.staking.maxSingleShareBps ∧ p.staking.maxSingleShareBps ≤ 10000) then
    .error (.validatorCapOutOfRange p.staking.maxSingleShareBps)
  else .ok ()

def validateChangeFrom (p current : ChainParams) : Except ParamError Unit := do
  p.validate
  if p.maxCouncilCountryShareBps > current.maxCouncilCountryShareBps then
    throw (.councilCapWouldLoosen p.maxCouncilCountryShareBps current.maxCouncilCountryShareBps)

end ChainParams

/-! ## Proposals -/

inductive GovAction where
  | setCouncil (council : Council)
  | setParams (params : ChainParams)
  | licenseAttestor (address : Address) (attestor : Attestor)
  | setAttestorActive (address : Address) (active : Bool)
  | admitDenom (denom : Denom) (authority : Address)
  | cancel (proposal : U64)
deriving DecidableEq

inductive ProposalError where
  | licensedSuspended
  | notSovereign (denom : String)
  | notCancellable (id : U64)
deriving DecidableEq, Repr

def GovAction.validate : GovAction → Except ProposalError Unit
  | .licenseAttestor _ attestor => if attestor.active then .ok () else .error .licensedSuspended
  | .admitDenom denom _ => if denom.isSovereign then .ok () else .error (.notSovereign denom.asStr)
  | _ => .ok ()

structure GovProposal where
  id : U64
  proposer : Address
  action : GovAction
  opened : Height
  votingEnds : Height
  votes : List Address
  scheduledFor : Option Height
deriving DecidableEq

def GovProposal.recordVote (p : GovProposal) (seat : Address) : Option GovProposal :=
  if seat ∈ p.votes then none
  else some { p with votes := p.votes.orderedInsert (· ≤ ·) seat }

structure ProposalQueue where
  nextId : U64 := 0
  open_ : List U64 := []
deriving DecidableEq

def GovAction.decodeError : GovAction → Option String
  | .licenseAttestor _ attestor => attestor.decodeError
  | _ => none

def GovProposal.decodeError (p : GovProposal) : Option String :=
  firstError [
    p.action.decodeError,
    tooLong p.votes,
    refuse (¬ p.votes.IsChain (· < ·)) "invalid value: proposal votes must be sorted and unique"]

instance : Encode Seat := ⟨fun s => encode s.holder ++ encode s.weight ++ encode s.country⟩
instance : Encode Council := ⟨fun c => encode c.seats ++ encode c.thresholdBps⟩

instance : Encode StakingParams := ⟨fun p => encode p.minBond ++ encode p.maxValidators ++
  encode p.maxSingleShareBps ++ encode p.maxCandidates ++ encode p.maxUnbondingEntries ++ encode p.unbondingMs⟩

instance : Encode ChainParams := ⟨fun p => encode p.staking ++ encode p.rebindDelayBlocks ++
  encode p.votingPeriodBlocks ++ encode p.timelockBlocks ++ encode p.maxCouncilCountryShareBps⟩

instance : Encode GovAction where
  encode
    | .setCouncil council => 1 :: encode council
    | .setParams params => 2 :: encode params
    | .licenseAttestor address attestor => 3 :: (encode address ++ encode attestor)
    | .setAttestorActive address active => 4 :: (encode address ++ encode active)
    | .admitDenom denom authority => 5 :: (encode denom ++ encode authority)
    | .cancel proposal => 6 :: encode proposal

end AfroLink
