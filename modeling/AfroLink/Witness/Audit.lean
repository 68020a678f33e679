import AfroLink.Witness.Log

/-!
# What a wallet checks of a witness

An observation is made by `observe` only, and a remembered head is compared with a later one by `checkContinuity`.
-/

namespace AfroLink

structure Witness where
  log : LogId
  key : PublicKey
  /-- The two bytes of the country's code. -/
  country : U8 × U8
  name : String
deriving DecidableEq

def Witness.new [Crypto] (key : PublicKey) (country : U8 × U8) (name : String) : Witness :=
  ⟨.fromPublicKey key, key, country, name⟩

/-- The witnesses a wallet ships with: at least one, and no log twice. -/
structure WitnessSet where
  witnesses : List Witness
  nonempty : witnesses ≠ []
  distinct : (witnesses.map Witness.log).Nodup

/-- What a wallet keeps about one witness between sessions. -/
structure Remembered where
  log : LogId
  size : U64
  root : Hash32
deriving DecidableEq

def Remembered.fromHead (sth : SignedTreeHead) : Remembered := ⟨sth.head.log, sth.head.size, sth.head.root⟩

/-- A witness's claim that has been checked. -/
structure Observation where
  log : LogId
  country : U8 × U8
  height : Height
  blockId : Hash32
  headSize : U64
  headRoot : Hash32
  signedAt : Timestamp
deriving DecidableEq

def Observation.remembered (o : Observation) : Remembered := ⟨o.log, o.headSize, o.headRoot⟩

namespace WitnessSet

def new (witnesses : List Witness) : Except WitnessError WitnessSet :=
  if hempty : witnesses = [] then .error .emptyWitnessSet
  else if hdistinct : (witnesses.map Witness.log).Nodup then .ok ⟨witnesses, hempty, hdistinct⟩
  else .error .duplicateWitness

def get (set : WitnessSet) (log : LogId) : Option Witness := set.witnesses.find? fun w => w.log = log

def len (set : WitnessSet) : Nat := set.witnesses.length

def countries (set : WitnessSet) : Nat := (set.witnesses.map Witness.country).dedup.length

variable [Crypto]

def signer (set : WitnessSet) (sth : SignedTreeHead) : Except WitnessError Witness := do
  match set.get sth.head.log with
  | none => throw .unknownWitness
  | some witness =>
    sth.verify witness.key
    return witness

def observe (set : WitnessSet) (chainId : ChainId) (sth : SignedTreeHead) (index : U64) (entry : LogEntry)
    (proof : MerkleProof) : Except WitnessError Observation := do
  let witness ← set.signer sth
  if sth.head.chainId ≠ chainId then throw (.wrongChain sth.head.chainId.asStr chainId.asStr)
  if asU64 proof.total ≠ sth.head.size ∨ asU64 proof.index ≠ index then
    throw (.sizeMismatch (asU64 proof.total) sth.head.size)
  (proof.verify sth.head.root entry.leaf index.val sth.head.size.val).mapError fun _ => .badInclusionProof
  return ⟨witness.log, witness.country, entry.height, entry.blockId, sth.head.size, sth.head.root, sth.head.signedAt⟩

/-- Check that a witness's log still begins with what the wallet saw of it. -/
def checkContinuity (set : WitnessSet) (remembered : Remembered) (sth : SignedTreeHead) (proof : ConsistencyProof) :
    Except WitnessError Unit := do
  let _ ← set.signer sth
  if sth.head.log ≠ remembered.log then throw .logMismatch
  if sth.head.size < remembered.size then throw (.sizeMismatch sth.head.size remembered.size)
  if asU64 proof.oldSize ≠ remembered.size ∨ asU64 proof.newSize ≠ sth.head.size then
    throw (.sizeMismatch (asU64 proof.oldSize) remembered.size)
  (proof.verify remembered.root sth.head.root remembered.size.val sth.head.size.val).mapError fun _ =>
    .badConsistencyProof

end WitnessSet

end AfroLink
