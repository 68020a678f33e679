import AfroLink.Base.Trie
import AfroLink.Crypto.Basic

/-!
# The state tree

A compact sparse Merkle tree: one slot for each hashed key, a subtree of one entry being that leaf and an empty one a
constant. A node of the source caches its hash and its size; both are functions of the tree here.
-/

namespace AfroLink

def Hash32.bit (h : Hash32) (i : Nat) : Bool := h.asBytes[i / 8]?.any fun b => b.val >>> (7 - i % 8) % 2 == 1

namespace Smt

/-- The deepest a proof can be: one sibling for each bit of a key hash. -/
def MAX_PROOF_DEPTH : Nat := 256

def EMPTY : Hash32 := 0

section

variable [Crypto]

def leafHash (keyHash : Hash32) (value : Bytes) : Hash32 :=
  let valueHash := hash .stateLeaf value
  hashParts .stateLeaf [keyHash.asBytes, valueHash.asBytes]

def nodeHash (left right : Hash32) : Hash32 := hashParts .stateNode [left.asBytes, right.asBytes]

def keyHash (key : Bytes) : Hash32 := hash .stateLeaf key

end

/-! ## Nodes -/

abbrev Link := HashTree (Option (Hash32 × Bytes))

namespace Link

@[match_pattern] abbrev absent : Link := .tip none
@[match_pattern] abbrev leaf (key : Hash32) (value : Bytes) : Link := .tip (some (key, value))
@[match_pattern] abbrev internal (left right : Link) : Link := .fork left right

def len : Link → Nat
  | absent => 0
  | leaf _ _ => 1
  | internal left right => left.len + right.len

def tipHash [Crypto] : Option (Hash32 × Bytes) → Hash32
  | none => EMPTY
  | some (key, value) => leafHash key value

def hash [Crypto] (link : Link) : Hash32 := link.digest tipHash nodeHash

end Link

/-- Branch two leaves apart, starting at `depth`; the fuel is the number of bits from there on. -/
def splitFrom : Nat → Link → Hash32 → Link → Hash32 → Nat → Link
  | 0, _, _, b, _, _ => b
  | fuel + 1, a, aKey, b, bKey, depth =>
    let aBit := aKey.bit depth
    let bBit := bKey.bit depth
    if aBit = bBit then
      let deeper := splitFrom fuel a aKey b bKey (depth + 1)
      if aBit then .internal .absent deeper else .internal deeper .absent
    else if aBit then .internal b a
    else .internal a b

def split (a : Link) (aKey : Hash32) (b : Link) (bKey : Hash32) (depth : Nat) : Link :=
  splitFrom (MAX_PROOF_DEPTH - depth) a aKey b bKey depth

def insertAt (key : Hash32) (value : Bytes) : Link → Nat → Link × Bool
  | .absent, _ => (.leaf key value, true)
  | .leaf existing existingValue, depth =>
    if existing = key then (.leaf key value, false)
    else if depth ≥ MAX_PROOF_DEPTH then (.leaf key value, false)
    else (split (.leaf existing existingValue) existing (.leaf key value) key depth, true)
  | .internal left right, depth =>
    if depth ≥ MAX_PROOF_DEPTH then (.internal left right, false)
    else if key.bit depth then
      let (rebuilt, added) := insertAt key value right (depth + 1)
      (.internal left rebuilt, added)
    else
      let (rebuilt, added) := insertAt key value left (depth + 1)
      (.internal rebuilt right, added)

/-- Rebuild a branch, collapsing it if it no longer holds two entries. -/
def collapse : Link → Link → Link
  | .absent, .absent => .absent
  | .leaf key value, .absent => .leaf key value
  | .absent, .leaf key value => .leaf key value
  | left, right => .internal left right

def removeAt (key : Hash32) : Link → Nat → Link × Bool
  | .absent, _ => (.absent, false)
  | .leaf existing value, _ => if existing = key then (.absent, true) else (.leaf existing value, false)
  | .internal left right, depth =>
    if depth ≥ MAX_PROOF_DEPTH then (.internal left right, false)
    else if key.bit depth then
      let (rebuilt, removed) := removeAt key right (depth + 1)
      (collapse left rebuilt, removed)
    else
      let (rebuilt, removed) := removeAt key left (depth + 1)
      (collapse rebuilt right, removed)

def getAt (key : Hash32) : Link → Nat → Option Bytes
  | .absent, _ => none
  | .leaf existing value, _ => if existing = key then some value else none
  | .internal left right, depth =>
    if depth ≥ MAX_PROOF_DEPTH then none
    else if key.bit depth then getAt key right (depth + 1)
    else getAt key left (depth + 1)

/-! ## Walking the entries -/

namespace Entries

/-- Nodes a walk takes off its stack below a link, the link included. -/
def nodes : Link → Nat
  | .absent => 0
  | .leaf _ _ => 1
  | .internal left right => 1 + nodes left + nodes right

def push : Link → List Link → List Link
  | .absent, stack => stack
  | link, stack => link :: stack

/-- The items of the iterator; the fuel is the number of nodes on and below the stack. -/
def items : Nat → List Link → List (Hash32 × Bytes)
  | fuel + 1, .leaf key value :: stack => (key, value) :: items fuel stack
  | fuel + 1, .internal left right :: stack => items fuel (push left (push right stack))
  | fuel + 1, .absent :: stack => items fuel stack
  | _, _ => []

end Entries

/-! ## Proofs -/

inductive ProofLeaf where
  /-- The queried key is present with this value. -/
  | present (value : Bytes)
  /-- The path ends in an empty subtree. -/
  | absent
  /-- The path ends in another key's leaf. -/
  | absentOccupied (otherKeyHash : Hash32) (otherValue : Bytes)
deriving DecidableEq

structure Proof where
  /-- Sibling hashes, from the root down. -/
  siblings : List Hash32
  leaf : ProofLeaf
deriving DecidableEq

def sharesPrefix (a b : Hash32) (bits : Nat) : Bool := (List.range bits).all fun i => a.bit i == b.bit i

namespace Proof

variable [Crypto]

/-- Where the climb to the root starts; none if the proof is malformed. -/
def start (p : Proof) (kh : Hash32) : Option Hash32 :=
  match p.leaf with
  | .present value => some (leafHash kh value)
  | .absent => some EMPTY
  | .absentOccupied otherKeyHash otherValue =>
    if otherKeyHash = kh then none
    else if !sharesPrefix kh otherKeyHash p.siblings.length then none
    else some (leafHash otherKeyHash otherValue)

def computeRoot (p : Proof) (key : Bytes) : Option Hash32 :=
  let kh := keyHash key
  if p.siblings.length > MAX_PROOF_DEPTH then none
  else do
    let acc ← p.start kh
    return p.siblings.zipIdx.foldr
      (fun (sibling, level) acc => if kh.bit level then nodeHash sibling acc else nodeHash acc sibling) acc

def verify (p : Proof) (root : Hash32) (key : Bytes) (expected : Option Bytes) : Bool :=
  let matchesClaim :=
    match p.leaf, expected with
    | .present value, some want => value == want
    | .absent, none => true
    | .absentOccupied _ _, none => true
    | _, _ => false
  matchesClaim && p.computeRoot key == some root

end Proof

/-- The loop of `prove`: the siblings met from here on, and what the path ends in. -/
def proveAt [Crypto] (kh : Hash32) : Link → Nat → Proof
  | .absent, _ => ⟨[], .absent⟩
  | .leaf k value, _ => ⟨[], if k = kh then .present value else .absentOccupied k value⟩
  | .internal left right, depth =>
    if depth ≥ MAX_PROOF_DEPTH then ⟨[], .absent⟩
    else if kh.bit depth then
      let deeper := proveAt kh right (depth + 1)
      ⟨left.hash :: deeper.siblings, deeper.leaf⟩
    else
      let deeper := proveAt kh left (depth + 1)
      ⟨right.hash :: deeper.siblings, deeper.leaf⟩

end Smt

/-! ## The tree -/

structure SparseMerkleTree where
  link : Smt.Link
  len : Nat
deriving DecidableEq

namespace SparseMerkleTree

open Smt

def new : SparseMerkleTree := ⟨.absent, 0⟩

def insertHashed (t : SparseMerkleTree) (key : Hash32) (value : Bytes) : SparseMerkleTree :=
  let (link, added) := insertAt key value t.link 0
  ⟨link, if added then t.len + 1 else t.len⟩

def entries (t : SparseMerkleTree) : List (Hash32 × Bytes) :=
  Entries.items (Entries.nodes t.link) (Entries.push t.link [])

/-- From entries whose keys are already path hashes, in the order of the map. -/
def fromEntries (entries : Std.TreeMap Hash32 Bytes) : SparseMerkleTree :=
  entries.toList.foldl (fun t e => t.insertHashed e.1 e.2) new

variable [Crypto]

def insert (t : SparseMerkleTree) (key value : Bytes) : SparseMerkleTree := t.insertHashed (keyHash key) value

def remove (t : SparseMerkleTree) (key : Bytes) : SparseMerkleTree × Bool :=
  let (link, removed) := removeAt (keyHash key) t.link 0
  (⟨link, if removed then t.len - 1 else t.len⟩, removed)

def get (t : SparseMerkleTree) (key : Bytes) : Option Bytes := getAt (keyHash key) t.link 0

def root (t : SparseMerkleTree) : Hash32 := t.link.hash

def prove (t : SparseMerkleTree) (key : Bytes) : Proof := proveAt (keyHash key) t.link 0

/-! ## Sequences of operations -/

inductive Op where
  | insert (key value : Bytes)
  | remove (key : Bytes)

def Op.key : Op → Bytes
  | insert key _ => key
  | remove key => key

omit [Crypto] in
def Op.value : Op → Option Bytes
  | insert _ value => some value
  | remove _ => none

def apply (t : SparseMerkleTree) : Op → SparseMerkleTree
  | .insert key value => t.insert key value
  | .remove key => (t.remove key).1

def build (ops : List Op) : SparseMerkleTree := ops.foldl apply new

omit [Crypto] in
def mapOf (ops : List Op) : Bytes → Option Bytes :=
  ops.foldl (fun m op => Function.update m op.key op.value) fun _ => none

end SparseMerkleTree

end AfroLink
