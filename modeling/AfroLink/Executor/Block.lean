import AfroLink.Types.Tx

/-!
# Blocks and headers
-/

namespace AfroLink

def MAX_BLOCK_TRANSACTIONS : Nat := 10000
def MAX_BLOCK_BYTES : Nat := 4 * 1024 * 1024

structure BlockHeader where
  chainId : ChainId
  height : Height
  time : Timestamp
  parent : Hash32
  txRoot : Hash32
  appHash : Hash32
  outcomeRoot : Hash32
  validatorsHash : Hash32
  nextValidatorsHash : Hash32
deriving DecidableEq

structure Block where
  header : BlockHeader
  transactions : List Transaction
deriving DecidableEq

structure BlockContext where
  height : Height
  time : Timestamp
deriving DecidableEq

/-- The set that signs this block and the one that signs the next. -/
structure ValidatorSets where
  current : ValidatorSet
  next : ValidatorSet

def ValidatorSets.unchanged (set : ValidatorSet) : ValidatorSets := ⟨set, set⟩

instance : Encode BlockHeader := ⟨fun h => encode h.chainId ++ encode h.height ++ encode h.time ++
  encode h.parent ++ encode h.txRoot ++ encode h.appHash ++ encode h.outcomeRoot ++ encode h.validatorsHash ++
  encode h.nextValidatorsHash⟩

/-- The running byte count stays within the limit at every transaction. -/
def bytesWithin : List Transaction → Nat → Bool
  | [], _ => true
  | t :: rest, bytes =>
    let bytes := bytes + (encode t).length
    if bytes > MAX_BLOCK_BYTES then false else bytesWithin rest bytes

def Block.withinSizeLimits (b : Block) : Bool :=
  if b.transactions.length > MAX_BLOCK_TRANSACTIONS then false else bytesWithin b.transactions 0

variable [Crypto]

def BlockHeader.id (h : BlockHeader) : Hash32 := hash .blockId (encode h)

def Block.txRoot (transactions : List Transaction) : Hash32 :=
  merkleRoot (transactions.map fun t => t.id.asBytes)

def Block.txRootMatches (b : Block) : Bool := b.header.txRoot == Block.txRoot b.transactions

end AfroLink
