import AfroLink.Crypto.Codec
import AfroLink.State.SparseMerkleTree

/-!
# Persisted nodes of the state tree

Every node is stored under its own hash, so that a hash that is held names a subtree that is held. Counters are natural
numbers; reading a tree back takes a bound on its depth.
-/

namespace AfroLink

namespace Smt

inductive Node where
  | leaf (keyHash : Hash32) (value : Bytes)
  | internal (left right : Hash32)
deriving DecidableEq

namespace Node

def hash [Crypto] : Node → Hash32
  | leaf keyHash value => leafHash keyHash value
  | internal left right => nodeHash left right

instance : Encode Node where
  encode
    | leaf keyHash value => 0 :: (encode keyHash ++ encode value)
    | internal left right => 1 :: (encode left ++ encode right)

instance : Decode Node where
  decode := do
    let tag ← (decode : Decoder U8)
    match tag.val with
    | 0 =>
      let keyHash ← decode
      let value ← decode
      return .leaf keyHash value
    | 1 =>
      let left ← decode
      let right ← decode
      return .internal left right
    | _ => throw (.unknownDiscriminant tag "Node")

end Node

/-- Somewhere nodes can be written to. -/
class NodeSink (S : Type) where
  hasNode : S → Hash32 → Bool
  putNode : S → Hash32 → Node → S

export NodeSink (hasNode putNode)

structure MemoryNodes where
  nodes : Std.TreeMap Hash32 Bytes

namespace MemoryNodes

def new : MemoryNodes := ⟨∅⟩

def getNode (s : MemoryNodes) (hash : Hash32) : Option Node := s.nodes[hash]?.bind fun b => (decodeExact b).toOption

instance : NodeSink MemoryNodes where
  hasNode s hash := s.nodes.contains hash
  putNode s hash node := ⟨s.nodes.insert hash (encode node)⟩

end MemoryNodes

/-- A store that writes down what is put into it, in order. -/
structure Journal where
  store : MemoryNodes
  writes : List (Hash32 × Node)

instance : NodeSink Journal where
  hasNode j hash := hasNode j.store hash
  putNode j hash node := ⟨putNode j.store hash node, j.writes ++ [(hash, node)]⟩

structure WriteStats where
  visited : Nat
  written : Nat
deriving DecidableEq

section

variable {S : Type} [NodeSink S] [Crypto]

/-- Write a node and everything new beneath it; where there is no node its hash is `EMPTY`. -/
def writeNode : Link → S × WriteStats → Hash32 × S × WriteStats
  | .absent, st => (EMPTY, st)
  | .leaf key value, (sink, stats) =>
    let hash := (Link.leaf key value).hash
    let stats := { stats with visited := stats.visited + 1 }
    if hasNode sink hash then (hash, sink, stats)
    else (hash, putNode sink hash (.leaf key value), { stats with written := stats.written + 1 })
  | .internal left right, (sink, stats) =>
    let hash := (Link.internal left right).hash
    let stats := { stats with visited := stats.visited + 1 }
    if hasNode sink hash then (hash, sink, stats)
    else
      let (leftHash, st) := writeNode left (sink, stats)
      let (rightHash, (sink, stats)) := writeNode right st
      (hash, putNode sink hash (.internal leftHash rightHash), { stats with written := stats.written + 1 })

/-- Write every node of `tree` that is not there; the root, the sink and how many were written. -/
def commitTree (tree : SparseMerkleTree) (sink : S) : Hash32 × S × WriteStats := writeNode tree.link (sink, ⟨0, 0⟩)

end

/-- The entries below a hash, if every node on the way is there. The fuel is the number of levels. -/
def collect (source : MemoryNodes) : Nat → Hash32 → Std.TreeMap Hash32 Bytes → Option (Std.TreeMap Hash32 Bytes)
  | 0, _, _ => none
  | fuel + 1, hash, out =>
    if hash = EMPTY then some out
    else do
      match ← source.getNode hash with
      | .leaf keyHash value => return out.insert keyHash value
      | .internal left right =>
        let out ← collect source fuel left out
        collect source fuel right out

def loadTree (fuel : Nat) (root : Hash32) (source : MemoryNodes) : Option SparseMerkleTree := do
  let entries ← collect source fuel root ∅
  return SparseMerkleTree.fromEntries entries

/-! ## Commits in order -/

variable [Crypto]

/-- The nodes that committing `tree` puts into a store, in order. -/
def commitWrites (tree : SparseMerkleTree) (store : MemoryNodes) : List (Hash32 × Node) :=
  (commitTree tree (Journal.mk store [])).2.1.writes

def MemoryNodes.putAll (store : MemoryNodes) (writes : List (Hash32 × Node)) : MemoryNodes :=
  writes.foldl (fun s w => putNode s w.1 w.2) store

def commitAll (trees : List SparseMerkleTree) : MemoryNodes :=
  trees.foldl (fun s t => (commitTree t s).2.1) .new

/-- The store when a further commit was interrupted after `n` of its writes. -/
def interrupted (trees : List SparseMerkleTree) (last : SparseMerkleTree) (n : Nat) : MemoryNodes :=
  (commitAll trees).putAll ((commitWrites last (commitAll trees)).take n)

end Smt

end AfroLink
