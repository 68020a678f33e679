import AfroLink.Executor.Executor

/-!
# The durable chain

The tables of blocks, certificates, receipts and transaction locations, and the height on record. One write transaction
is one function: it gives the tables after it, or an error and no tables.
-/

open Std

namespace AfroLink

inductive StoreError where
  | corrupt (what reason : String)
deriving DecidableEq

structure ChainStore where
  blocks : TreeMap Height Block
  commits : TreeMap Height Commit
  receiptLists : TreeMap Height (List TxReceipt)
  locations : TreeMap Hash32 (Height × U32)
  recorded : Option Height

namespace ChainStore

def new : ChainStore := { blocks := ∅, commits := ∅, receiptLists := ∅, locations := ∅, recorded := none }

def height (c : ChainStore) : Height := c.recorded.getD 0

def block (c : ChainStore) (height : Height) : Option Block := c.blocks[height]?

def commit (c : ChainStore) (height : Height) : Option Commit := c.commits[height]?

def receipts (c : ChainStore) (height : Height) : Option (List TxReceipt) := c.receiptLists[height]?

def locate (c : ChainStore) (id : Hash32) : Option (Height × U32) := c.locations[id]?

def transaction (c : ChainStore) (id : Hash32) : Except StoreError (Option (Height × U32 × Transaction)) :=
  match c.locate id with
  | none => .ok none
  | some (height, index) =>
    match c.block height with
    | none => .error (.corrupt ("tx index for " ++ StoreKey.hexOf id.asBytes)
        ("points at block " ++ toString height.val ++ ", which is missing"))
    | some block =>
      match block.transactions[index.val]? with
      | none => .error (.corrupt ("tx index for " ++ StoreKey.hexOf id.asBytes)
          ("points at position " ++ toString index.val ++ " in block " ++ toString height.val ++ ", which is shorter"))
      | some t => .ok (some (height, index, t))

variable [Crypto]

/-- The locations with the transactions of a block from position `index` on. -/
def indexFrom (height : Height) : (index : Nat) → List Transaction → TreeMap Hash32 (Height × U32) →
    Except StoreError (TreeMap Hash32 (Height × U32))
  | _, [], locations => .ok locations
  | index, t :: rest, locations =>
    if h : index < 2 ^ 32 then indexFrom height (index + 1) rest (locations.insert t.id (height, ⟨index, h⟩))
    else .error (.corrupt ("block " ++ toString height.val) "more transactions than a u32 can index")

def putBlock (c : ChainStore) (block : Block) (commit : Commit) (receipts : List TxReceipt) :
    Except StoreError ChainStore :=
  let height := block.header.height
  if receipts.length ≠ block.transactions.length then
    .error (.corrupt ("block " ++ toString height.val)
      (toString block.transactions.length ++ " transactions but " ++ toString receipts.length ++ " receipts"))
  else
    match indexFrom height 0 block.transactions c.locations with
    | .error e => .error e
    | .ok locations =>
      .ok { blocks := c.blocks.insert height block
            commits := c.commits.insert height commit
            receiptLists := c.receiptLists.insert height receipts
            locations
            recorded := if c.height ≤ height then some height else c.recorded }

end ChainStore

end AfroLink
