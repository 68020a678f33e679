import AfroLink.Crypto.Merkle
import AfroLink.State.Nodes

/-!
# Witness logs

What a witness saw of the chain, in a log that only grows, and the heads it signs over the log.
-/

namespace AfroLink

inductive WitnessError where
  | unknownWitness
  | badSignature
  | logMismatch
  | wrongChain (got expected : String)
  | nonMonotonic (got last : U64)
  | indexOutOfRange
  | sizeMismatch (got expected : U64)
  | badInclusionProof
  | badConsistencyProof
  | splitView (height : U64)
  | notCorroborated (witnesses countries needWitnesses needCountries : Nat)
  | emptyWitnessSet
  | duplicateWitness
  | notEquivocation
deriving DecidableEq, Repr

/-- A size or an index as a `u64`: `u64::try_from(n).unwrap_or(u64::MAX)`. -/
def asU64 (n : Nat) : U64 := if h : n < 2 ^ 64 then ⟨n, h⟩ else Fin.last _

/-! ## Heads -/

/-- A log is named after the key it is signed with. -/
structure LogId where
  asHash : Hash32
deriving DecidableEq

instance : Encode LogId := ⟨fun l => encode l.asHash⟩

structure TreeHead where
  log : LogId
  chainId : ChainId
  size : U64
  root : Hash32
  signedAt : Timestamp
deriving DecidableEq

instance : Encode TreeHead where
  encode h := encode h.log ++ encode h.chainId ++ encode h.size ++ encode h.root ++ encode h.signedAt

def TreeHead.signDoc (h : TreeHead) : Bytes := encode h

structure SignedTreeHead where
  head : TreeHead
  signature : Signature
deriving DecidableEq

section

variable [Crypto]

def LogId.fromPublicKey (key : PublicKey) : LogId := ⟨hash .witnessLogId key.toBytes⟩

def TreeHead.sign (h : TreeHead) (key : SecretKey) : SignedTreeHead := ⟨h, key.sign .treeHeadSignDoc h.signDoc⟩

/-- The signature is the key's, and the log is named after the key. -/
def SignedTreeHead.verify (s : SignedTreeHead) (key : PublicKey) : Except WitnessError Unit := do
  if LogId.fromPublicKey key ≠ s.head.log then throw .logMismatch
  if !key.verify .treeHeadSignDoc s.head.signDoc s.signature then throw .badSignature

/-- Two signed heads offered as proof that a witness published conflicting histories. -/
structure Witness.Equivocation where
  a : SignedTreeHead
  b : SignedTreeHead
deriving DecidableEq

/-- Both heads are the key's, of one log and of one size, and their roots differ. -/
def Witness.Equivocation.check (e : Witness.Equivocation) (key : PublicKey) : Except WitnessError Unit := do
  e.a.verify key
  e.b.verify key
  if e.a.head.log ≠ e.b.head.log then throw .logMismatch
  if e.a.head.size ≠ e.b.head.size ∨ e.a.head.root = e.b.head.root then throw .notEquivocation

end

/-! ## The log -/

structure LogEntry where
  height : Height
  blockId : Hash32
  /-- The witness's own clock. -/
  observedAt : Timestamp
deriving DecidableEq

instance : Encode LogEntry where
  encode e := encode e.height ++ (encode e.blockId ++ encode e.observedAt)

instance : Decode LogEntry where
  decode := do
    let height ← decode
    let blockId ← decode
    let observedAt ← decode
    return ⟨height, blockId, observedAt⟩

structure WitnessLog where
  chainId : ChainId
  log : LogId
  entries : List LogEntry

namespace WitnessLog

def new (chainId : ChainId) (log : LogId) : WitnessLog := ⟨chainId, log, []⟩

def size (w : WitnessLog) : U64 := asU64 w.entries.length

def append (w : WitnessLog) (entry : LogEntry) : Except WitnessError (U64 × WitnessLog) :=
  let pushed := { w with entries := w.entries ++ [entry] }
  match w.entries.getLast? with
  | some last =>
    if entry.height ≤ last.height ∨ entry.observedAt ≤ last.observedAt then
      .error (.nonMonotonic entry.height last.height)
    else .ok (pushed.size.saturatingSub 1, pushed)
  | none => .ok (pushed.size.saturatingSub 1, pushed)

def entry (w : WitnessLog) (index : U64) : Option LogEntry := w.entries[index.val]?

def latest (w : WitnessLog) : Option LogEntry := w.entries.getLast?

end WitnessLog

section

variable [Crypto]

def LogEntry.leaf (e : LogEntry) : Hash32 := hash .witnessEntry (encode e)

namespace WitnessLog

def tree (w : WitnessLog) : MerkleTree := .fromLeafHashes (w.entries.map LogEntry.leaf)

def root (w : WitnessLog) : Hash32 := w.tree.root

def head (w : WitnessLog) (signedAt : Timestamp) : TreeHead := ⟨w.log, w.chainId, w.size, w.root, signedAt⟩

def signHead (w : WitnessLog) (key : SecretKey) (signedAt : Timestamp) : Except WitnessError SignedTreeHead :=
  if LogId.fromPublicKey key.publicKey ≠ w.log then .error .logMismatch
  else .ok ((w.head signedAt).sign key)

def proveInclusion (w : WitnessLog) (index : U64) : Except WitnessError MerkleProof :=
  (w.tree.prove index.val).mapError fun _ => .indexOutOfRange

def proveConsistency (w : WitnessLog) (oldSize : U64) : Except WitnessError ConsistencyProof :=
  (w.tree.proveConsistency oldSize.val).mapError fun _ => .sizeMismatch oldSize w.size

end WitnessLog

end

end AfroLink
