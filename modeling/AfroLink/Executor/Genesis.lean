import AfroLink.Executor.Executor

/-!
# Genesis

The agreed starting state: issuers, opening balances, the council and its parameters, attestors, and an account
record for everyone who holds something.
-/

namespace AfroLink

/-- The source keeps the text of a governance error; the error itself is kept here. -/
inductive GenesisError where
  | noAllocations
  | duplicateAllocation
  | unregisteredDenom (denom : String)
  | insufficientDistribution (found required : Nat)
  | excessiveConcentration (found cap : U32)
  | duplicateAttestor (text : String)
  | suspendedAttestor (address : Address)
  | params (e : ParamError)
  | council (e : CouncilError)
  | councilCap (got limit : U32)
  | governance (e : GovError)
  | bank (e : BankError)
deriving DecidableEq

structure Allocation where
  address : Address
  denom : Denom
  amount : Amount
deriving DecidableEq

/-- A genesis file as it is read: its issuers and attestors have been through their decoders. -/
structure Genesis where
  chainId : ChainId
  genesisTime : Timestamp
  validators : ValidatorSet
  issuers : List (Denom × Issuer)
  attestors : List (Address × Attestor)
  council : Council
  params : ChainParams
  allocations : List Allocation
  issuers_decode : ∀ p ∈ issuers, p.2.decodeError = none
  attestors_decode : ∀ p ∈ attestors, p.2.decodeError = none

structure GenesisLimits where
  minCountries : Nat := 15
  maxSingleShareBps : U32 := 1000
  maxCouncilCountryShareBps : U32 := MAX_COUNCIL_COUNTRY_SHARE_BPS

def GenesisLimits.devnet : GenesisLimits :=
  { minCountries := 1, maxSingleShareBps := 10000, maxCouncilCountryShareBps := 10000 }

namespace Genesis

def validate (g : Genesis) (limits : GenesisLimits) : Except GenesisError Unit := do
  if g.allocations = [] then throw .noAllocations
  if ¬ (g.allocations.map fun a => (a.address, a.denom)).Nodup then throw .duplicateAllocation
  match g.allocations.find? fun a => a.denom.isSovereign && !g.issuers.any (·.1 == a.denom) with
  | some a => throw (.unregisteredDenom a.denom.asStr)
  | none => pure ()
  if ¬ (g.attestors.map (·.1)).Nodup then throw (.duplicateAttestor "one account named twice")
  match g.attestors.find? fun p => !p.2.active with
  | some p => throw (.suspendedAttestor p.1)
  | none => pure ()
  if g.validators.countriesRepresented < limits.minCountries then
    throw (.insufficientDistribution g.validators.countriesRepresented limits.minCountries)
  if g.validators.maxSingleShareBps > limits.maxSingleShareBps then
    throw (.excessiveConcentration g.validators.maxSingleShareBps limits.maxSingleShareBps)
  match g.params.validate with
  | .error e => throw (.params e)
  | .ok _ => pure ()
  if g.params.maxCouncilCountryShareBps > limits.maxCouncilCountryShareBps then
    throw (.councilCap g.params.maxCouncilCountryShareBps limits.maxCouncilCountryShareBps)
  match g.council.checkConcentration g.params.maxCouncilCountryShareBps with
  | .error e => throw (.council e)
  | .ok _ => pure ()

abbrev M (α : Type) := StoreM GenesisError α

def registerIssuers : List (Denom × Issuer) → M Unit
  | [] => pure ()
  | (denom, i) :: rest => do
    mapErr .bank (Bank.registerIssuer denom i)
    registerIssuers rest

def allocateAll : List Allocation → M Unit
  | [] => pure ()
  | a :: rest => do
    mapErr .bank (Bank.genesisAllocate a.address a.denom a.amount)
    allocateAll rest

def registerAttestors : List (Address × Attestor) → M Unit
  | [] => pure ()
  | (address, a) :: rest => do
    setEncoded (.attestor address) a
    registerAttestors rest

/-- An account record for every holder, so that a nonce exists from the first block on. -/
def openAccounts : List Address → M Unit
  | [] => pure ()
  | a :: rest => do
    setEncoded (.account a) (Account.individual a)
    openAccounts rest

def install (g : Genesis) (limits : GenesisLimits) : M Unit := do
  liftResult id (g.validate limits)
  registerIssuers g.issuers
  allocateAll g.allocations
  mapErr .governance (Governance.install g.council g.params)
  registerAttestors g.attestors
  openAccounts (sortDedup (g.allocations.map (·.address)))

def apply [Crypto] [StateRoot] (g : Genesis) (limits : GenesisLimits) : M Block := do
  g.install limits
  let s ← get
  let header : BlockHeader :=
    { chainId := g.chainId, height := 0, time := g.genesisTime, parent := 0, txRoot := Block.txRoot []
      appHash := StateRoot.root s, outcomeRoot := emptyRoot
      validatorsHash := g.validators.hash, nextValidatorsHash := g.validators.hash }
  return { header, transactions := [] }

end Genesis

end AfroLink
