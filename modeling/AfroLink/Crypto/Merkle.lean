import AfroLink.Base.Reader
import AfroLink.Crypto.Basic

/-!
# Merkle proofs

Inclusion and consistency proofs over the tree of RFC 6962: how they are built and how they are checked. The fuel of
a recursion is the number of leaves it starts with.
-/

namespace AfroLink

inductive CryptoError where
  | invalidProof (reason : String)
deriving DecidableEq, Repr

structure MerkleTree where
  leaves : List Hash32

structure MerkleProof where
  index : Nat
  total : Nat
  /-- Sibling hashes, from the root down. -/
  siblings : List Hash32
deriving DecidableEq

structure ConsistencyProof where
  oldSize : Nat
  newSize : Nat
  /-- Subtree hashes, in the order the recursion consumes them. -/
  nodes : List Hash32
deriving DecidableEq

variable [Crypto]

def leavesRoot (leaves : List Hash32) : Hash32 := rootOf leaves.length leaves

namespace MerkleTree

def fromLeafHashes (leaves : List Hash32) : MerkleTree := ⟨leaves⟩

def fromItems (items : List Bytes) : MerkleTree := ⟨items.map leafHash⟩

def root (t : MerkleTree) : Hash32 := leavesRoot t.leaves

def collectSiblings : Nat → List Hash32 → Nat → List Hash32
  | 0, _, _ => []
  | fuel + 1, leaves, index =>
    if leaves.length ≤ 1 then []
    else
      let k := splitPoint leaves.length
      if index < k then leavesRoot (leaves.drop k) :: collectSiblings fuel (leaves.take k) index
      else leavesRoot (leaves.take k) :: collectSiblings fuel (leaves.drop k) (index - k)

def prove (t : MerkleTree) (index : Nat) : Except CryptoError MerkleProof :=
  if index ≥ t.leaves.length then .error (.invalidProof "leaf index out of range")
  else .ok ⟨index, t.leaves.length, collectSiblings t.leaves.length t.leaves index⟩

/-- RFC 6962 `SUBPROOF`: at the top the old root is the one the verifier holds, and is not sent. -/
def collectConsistency : Nat → List Hash32 → Nat → Bool → List Hash32
  | 0, _, _, _ => []
  | fuel + 1, leaves, m, isTop =>
    if m = leaves.length then
      if isTop then [] else [leavesRoot leaves]
    else
      let k := splitPoint leaves.length
      if m ≤ k then collectConsistency fuel (leaves.take k) m isTop ++ [leavesRoot (leaves.drop k)]
      else collectConsistency fuel (leaves.drop k) (m - k) false ++ [leavesRoot (leaves.take k)]

def proveConsistency (t : MerkleTree) (oldSize : Nat) : Except CryptoError ConsistencyProof :=
  let newSize := t.leaves.length
  if oldSize > newSize then .error (.invalidProof "old size exceeds tree size")
  else
    let nodes := if oldSize ≠ 0 ∧ oldSize ≠ newSize then collectConsistency newSize t.leaves oldSize true else []
    .ok ⟨oldSize, newSize, nodes⟩

end MerkleTree

namespace MerkleProof

omit [Crypto] in
/-- Which side of each split the leaf is on, from the root down: `true` is left. -/
def frames : Nat → Nat → Nat → List Bool
  | 0, _, _ => []
  | fuel + 1, idx, total =>
    if total > 1 then
      let k := splitPoint total
      if idx < k then true :: frames fuel idx k
      else false :: frames fuel (idx - k) (total - k)
    else []

def replay : List Bool → List Hash32 → Hash32 → Except CryptoError Hash32
  | [], _, acc => .ok acc
  | _ :: _, [], _ => .error (.invalidProof "ran out of siblings")
  | onLeft :: frames, sibling :: siblings, acc =>
    replay frames siblings (if onLeft then nodeHash acc sibling else nodeHash sibling acc)

def computeRoot (p : MerkleProof) (leaf : Hash32) : Except CryptoError Hash32 :=
  if p.total = 0 ∨ p.index ≥ p.total then .error (.invalidProof "index out of range for total")
  else
    let frames := frames p.total p.index p.total
    if frames.length ≠ p.siblings.length then .error (.invalidProof "sibling count does not match tree shape")
    else replay frames.reverse p.siblings.reverse leaf

def verify (p : MerkleProof) (root leaf : Hash32) (index total : Nat) : Except CryptoError Unit := do
  if p.index ≠ index ∨ p.total ≠ total then
    throw (.invalidProof "proof is for a different position or tree size")
  if (← p.computeRoot leaf) = root then return ()
  else throw (.invalidProof "recomputed root does not match")

end MerkleProof

namespace ConsistencyProof

omit [Crypto] in
def nextNode : Reader Hash32 CryptoError Hash32
  | [] => .error (.invalidProof "consistency proof ran out of nodes")
  | h :: rest => .ok (h, rest)

/-- Recompute the old and the new root from the nodes, as `collectConsistency` sends them. -/
def replay : Nat → Nat → Nat → Bool → Hash32 → Reader Hash32 CryptoError (Hash32 × Hash32)
  | 0, _, _, _, _ => throw (.invalidProof "consistency proof ran out of nodes")
  | fuel + 1, m, n, isTop, knownOld =>
    if m = n then
      if isTop then return (knownOld, knownOld)
      else do
        let h ← nextNode
        return (h, h)
    else
      let k := splitPoint n
      if m ≤ k then do
        let (old, newLeft) ← replay fuel m k isTop knownOld
        let right ← nextNode
        return (old, nodeHash newLeft right)
      else do
        let (oldRight, newRight) ← replay fuel (m - k) (n - k) false knownOld
        let left ← nextNode
        return (nodeHash left oldRight, nodeHash left newRight)

def verify (p : ConsistencyProof) (oldRoot newRoot : Hash32) (oldSize newSize : Nat) : Except CryptoError Unit := do
  if p.oldSize ≠ oldSize ∨ p.newSize ≠ newSize then
    throw (.invalidProof "proof spans a different pair of tree sizes")
  if p.oldSize > p.newSize then throw (.invalidProof "old size exceeds new size")
  if p.oldSize = 0 ∨ p.oldSize = p.newSize then
    if !p.nodes.isEmpty then throw (.invalidProof "degenerate consistency proof must be empty")
    let expected := if p.oldSize = 0 then emptyRoot else newRoot
    if oldRoot = expected then return () else throw (.invalidProof "old root does not match")
  let ((old, new), spare) ← (replay p.newSize p.oldSize p.newSize true oldRoot).run p.nodes
  if !spare.isEmpty then throw (.invalidProof "consistency proof has spare nodes")
  if old ≠ oldRoot then throw (.invalidProof "proof does not reproduce the old root")
  if new ≠ newRoot then throw (.invalidProof "proof does not reproduce the new root")

end ConsistencyProof

end AfroLink
