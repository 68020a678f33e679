import AfroLink.Base.Effect
import AfroLink.Executor.Block

/-!
# The light client

A wallet's view of the chain: one trusted header and the two validator sets it commits to. A call takes `&mut self`, so
it is a program over the client.
-/

namespace AfroLink

inductive LightError where
  | commit (e : CommitError)
  | headerMismatch
  | wrongChain (got expected : String)
  | nonSequential (got trusted : U64)
  | brokenChain
  | trustExpired (ageMs periodMs : U64)
  | nonMonotonicTime (got trusted : U64)
  | validatorSetMismatch
  | insufficientOverlap (got needed : U64)
  | fromTheFuture (got now driftMs : U64)
  | wrongBlock
deriving DecidableEq

def TRUSTING_PERIOD_MS : U64 := UNBONDING_MS / 3 * 2

def MAX_CLOCK_DRIFT_MS : U64 := 5000

structure LightClient where
  chainId : ChainId
  validators : ValidatorSet
  nextValidators : ValidatorSet
  trusted : BlockHeader
  trustingPeriodMs : U64

structure Offer where
  header : BlockHeader
  commit : Commit
  validators : ValidatorSet
  nextValidators : ValidatorSet
  now : Timestamp

abbrev LightM := EStateM LightError LightClient

namespace LightClient

def new (chainId : ChainId) (validators : ValidatorSet) (genesisHeader : BlockHeader) : LightClient :=
  { chainId, validators, nextValidators := validators, trusted := genesisHeader, trustingPeriodMs := TRUSTING_PERIOD_MS }

variable [Crypto]

def fromCheckpoint (chainId : ChainId) (header : BlockHeader) (validators nextValidators : ValidatorSet) :
    Except LightError LightClient :=
  if validators.hash ≠ header.validatorsHash ∨ nextValidators.hash ≠ header.nextValidatorsHash then
    .error .validatorSetMismatch
  else .ok { chainId, validators, nextValidators, trusted := header, trustingPeriodMs := TRUSTING_PERIOD_MS }

def fromBlockId (chainId : ChainId) (blockId : Hash32) (header : BlockHeader)
    (validators nextValidators : ValidatorSet) : Except LightError LightClient :=
  if header.chainId ≠ chainId then .error (.wrongChain header.chainId.asStr chainId.asStr)
  else if header.id ≠ blockId then .error .wrongBlock
  else fromCheckpoint chainId header validators nextValidators

/-! ## Checks -/

omit [Crypto] in
def checkFreshness (now : Timestamp) : LightM Unit := do
  let c ← get
  let age := now.saturatingSub c.trusted.time
  if age > c.trustingPeriodMs then throw (.trustExpired age c.trustingPeriodMs)

omit [Crypto] in
def checkChainAndTime (header : BlockHeader) (now : Timestamp) : LightM Unit := do
  let c ← get
  if header.chainId ≠ c.chainId then throw (.wrongChain header.chainId.asStr c.chainId.asStr)
  if header.time ≤ c.trusted.time then throw (.nonMonotonicTime header.time c.trusted.time)
  if header.time > now.saturatingAdd MAX_CLOCK_DRIFT_MS then throw (.fromTheFuture header.time now MAX_CLOCK_DRIFT_MS)

def checkCommitAndSets (o : Offer) : LightM Unit := do
  if o.commit.blockId ≠ o.header.id ∨ o.commit.height ≠ o.header.height then throw .headerMismatch
  if o.validators.hash ≠ o.header.validatorsHash ∨ o.nextValidators.hash ≠ o.header.nextValidatorsHash then
    throw .validatorSetMismatch

/-- One pass over the signatures; `counted` and `power` accumulate. -/
def trustedPowerFrom (validators : ValidatorSet) : List SignedVote → (counted : List Address) → (power : U64) → U64
  | [], _, power => power
  | signed :: rest, counted, power =>
    let address := signed.vote.validator
    if address ∈ counted then trustedPowerFrom validators rest counted power
    else match validators.get address with
      | none => trustedPowerFrom validators rest counted power
      | some validator =>
        if signed.verifies validator.publicKey then
          trustedPowerFrom validators rest (counted ++ [address]) (power.saturatingAdd validator.votingPower)
        else trustedPowerFrom validators rest counted power

def trustedPowerIn (c : LightClient) (commit : Commit) : U64 := trustedPowerFrom c.validators commit.signatures [] 0

/-! ## Updates -/

omit [Crypto] in
def adopt (o : Offer) : LightM Unit :=
  modify fun c => { c with trusted := o.header, validators := o.validators, nextValidators := o.nextValidators }

def update (o : Offer) : LightM Unit := do
  checkFreshness o.now
  checkChainAndTime o.header o.now
  let c ← get
  if o.header.height ≠ c.trusted.height.next then throw (.nonSequential o.header.height c.trusted.height)
  if o.header.parent ≠ c.trusted.id then throw .brokenChain
  checkCommitAndSets o
  if o.header.validatorsHash ≠ c.trusted.nextValidatorsHash then throw .validatorSetMismatch
  liftResult .commit (o.commit.verify c.chainId o.validators)
  adopt o

def verifySkipping (o : Offer) : LightM Unit := do
  checkFreshness o.now
  checkChainAndTime o.header o.now
  let c ← get
  if o.header.height ≤ c.trusted.height then throw (.nonSequential o.header.height c.trusted.height)
  checkCommitAndSets o
  liftResult .commit (o.commit.verify c.chainId o.validators)
  -- the trusted header already named this exact set
  if o.header.height = c.trusted.height.next ∧ o.header.validatorsHash = c.trusted.nextValidatorsHash then adopt o
  else
    let overlap := c.trustedPowerIn o.commit
    let needed := c.validators.maxByzantinePower.saturatingAdd 1
    if overlap < needed then throw (.insufficientOverlap overlap needed)
    adopt o

inductive Call where
  | update (o : Offer)
  | verifySkipping (o : Offer)

def Call.offer : Call → Offer
  | .update o => o
  | .verifySkipping o => o

def Call.run : Call → LightM Unit
  | .update o => LightClient.update o
  | .verifySkipping o => LightClient.verifySkipping o

def after (c : LightClient) (k : Call) : LightClient :=
  match k.run c with
  | .ok _ c' => c'
  | .error _ c' => c'

def afterAll (c : LightClient) (calls : List Call) : LightClient := calls.foldl after c

end LightClient

end AfroLink
