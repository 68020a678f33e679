import AfroLink.Primitives.Codec

/-!
# Hashes, keys and addresses

BLAKE3 and Ed25519 are the two primitives the crates link against; they are the only
parameters of the model. Everything built from them is defined here as the code does it.
-/

namespace AfroLink

/-- A 32-byte digest, read as a big-endian number: byte order is numeric order. -/
abbrev Hash32 := Fin (2 ^ 256)
abbrev Address := Fin (2 ^ 160)

-- a constant: membership tests of addresses all refer to it
instance address_lawfulBEq : LawfulBEq Address := inferInstance

structure SecretKey where
  bytes : Fin (2 ^ 256)
deriving DecidableEq

structure PublicKey where
  bytes : Fin (2 ^ 256)
deriving DecidableEq

structure Signature where
  bytes : Fin (2 ^ 512)
deriving DecidableEq

def Hash32.ZERO : Hash32 := 0
def Hash32.asBytes (h : Hash32) : Bytes := beBytes 32 h.val
def Address.asBytes (a : Address) : Bytes := beBytes 20 a.val
def PublicKey.toBytes (pk : PublicKey) : Bytes := beBytes 32 pk.bytes.val

instance : Encode Hash32 := ⟨Hash32.asBytes⟩
instance : Encode Address := ⟨Address.asBytes⟩
instance : Encode PublicKey := ⟨PublicKey.toBytes⟩
instance : Encode Signature := ⟨fun s => beBytes 64 s.bytes.val⟩

/-- The linked primitives: BLAKE3, and Ed25519 signing and strict verification. -/
class Crypto where
  blake3 : Bytes → Hash32
  verifyingKey : SecretKey → PublicKey
  sign : SecretKey → Bytes → Signature
  verifyStrict : PublicKey → Bytes → Signature → Bool

/-! ## Domain-separated hashing -/

inductive Domain where
  | address | txSignDoc | txId | blockId | merkleLeaf | merkleNode | stateLeaf | stateNode
  | voteSignDoc | validatorId | groupAddress | moduleAddress | validatorSetHash
  | contactCommitment | witnessLogId | treeHeadSignDoc | witnessEntry | p2pTranscript
  | p2pSessionKey | p2pHandshakeSignDoc | genesisId | p2pAddrBucket
deriving DecidableEq

def Domain.asStr : Domain → String
  | address => "afrolink/v1/address"
  | txSignDoc => "afrolink/v1/tx-sign-doc"
  | txId => "afrolink/v1/tx-id"
  | blockId => "afrolink/v1/block-id"
  | merkleLeaf => "afrolink/v1/merkle-leaf"
  | merkleNode => "afrolink/v1/merkle-node"
  | stateLeaf => "afrolink/v1/state-leaf"
  | stateNode => "afrolink/v1/state-node"
  | voteSignDoc => "afrolink/v1/vote-sign-doc"
  | validatorId => "afrolink/v1/validator-id"
  | groupAddress => "afrolink/v1/group-address"
  | moduleAddress => "afrolink/v1/module-address"
  | validatorSetHash => "afrolink/v1/validator-set-hash"
  | contactCommitment => "afrolink/v1/contact-commitment"
  | witnessLogId => "afrolink/v1/witness-log-id"
  | treeHeadSignDoc => "afrolink/v1/tree-head-sign-doc"
  | witnessEntry => "afrolink/v1/witness-entry"
  | p2pTranscript => "afrolink/v1/p2p-transcript"
  | p2pSessionKey => "afrolink/v1/p2p-session-key"
  | p2pHandshakeSignDoc => "afrolink/v1/p2p-handshake-sign-doc"
  | genesisId => "afrolink/v1/genesis-id"
  | p2pAddrBucket => "afrolink/v1/p2p-addr-bucket"

def absorbDomain (domain : Domain) : Bytes :=
  encodeLen (utf8Bytes domain.asStr).length ++ utf8Bytes domain.asStr

variable [Crypto]

def hash (domain : Domain) (data : Bytes) : Hash32 := Crypto.blake3 (absorbDomain domain ++ data)

def hashParts (domain : Domain) (parts : List Bytes) : Hash32 := hash domain parts.flatten

/-! ## Keys and addresses -/

def SecretKey.publicKey (sk : SecretKey) : PublicKey := Crypto.verifyingKey sk

def SecretKey.sign (sk : SecretKey) (domain : Domain) (message : Bytes) : Signature :=
  Crypto.sign sk (hash domain message).asBytes

def PublicKey.verify (pk : PublicKey) (domain : Domain) (message : Bytes) (sig : Signature) : Bool :=
  Crypto.verifyStrict pk (hash domain message).asBytes sig

def Address.ofDigest (d : Hash32) : Address := ⟨d.val / 2 ^ 96, by have := d.isLt; omega⟩

def Address.derived (domain : Domain) (seed : Bytes) : Address := ofDigest (hash domain seed)

def Address.fromPublicKey (pk : PublicKey) : Address := derived .address pk.toBytes

/-! ## Merkle roots -/

def emptyRoot : Hash32 := hash .merkleNode []
def leafHash (data : Bytes) : Hash32 := hash .merkleLeaf data
def nodeHash (left right : Hash32) : Hash32 := hashParts .merkleNode [left.asBytes, right.asBytes]

/-- Doubles `k` while twice it is below `n`; `n` doublings are enough. -/
def splitPointFrom : Nat → Nat → Nat → Nat
  | 0, k, _ => k
  | fuel + 1, k, n => if k * 2 < n then splitPointFrom fuel (k * 2) n else k

def splitPoint (n : Nat) : Nat := splitPointFrom n 1 n

def rootOf : Nat → List Hash32 → Hash32
  | _, [] => emptyRoot
  | _, [only] => only
  | 0, _ => emptyRoot
  | fuel + 1, leaves =>
    let k := splitPoint leaves.length
    nodeHash (rootOf fuel (leaves.take k)) (rootOf fuel (leaves.drop k))

def merkleRoot (items : List Bytes) : Hash32 := rootOf items.length (items.map leafHash)

end AfroLink
