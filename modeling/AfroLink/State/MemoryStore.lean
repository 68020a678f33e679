import AfroLink.State.Lemmas.StateProofs
import AfroLink.State.Store

/-!
# The state as a tree

What a node keeps of its state and serves from: a tree that was built by writes and removals.
-/

namespace AfroLink

structure MemoryStore where
  tree : SparseMerkleTree
  wellFormed : tree.WellFormed

namespace MemoryStore

open SparseMerkleTree (wellFormed_new)

def new : MemoryStore := ⟨.new, wellFormed_new⟩

variable [Crypto]

def get (s : MemoryStore) (key : StoreKey) : Option Bytes := s.tree.get key.asBytes

def set (s : MemoryStore) (key : StoreKey) (value : Bytes) : MemoryStore :=
  ⟨s.tree.insert key.asBytes value, (s.wellFormed.insertHashed _ value).1⟩

def delete (s : MemoryStore) (key : StoreKey) : MemoryStore × Bool :=
  (⟨(s.tree.remove key.asBytes).1, s.wellFormed.remove.1⟩, (s.tree.remove key.asBytes).2)

def root (s : MemoryStore) : Hash32 := s.tree.root

def getWithProof (s : MemoryStore) (key : StoreKey) : Option Bytes × Smt.Proof :=
  (s.get key, s.tree.prove key.asBytes)

theorem getWithProof_verifies (s : MemoryStore) (key : StoreKey) :
    (s.getWithProof key).2.verify s.root key.asBytes (s.getWithProof key).1 = true :=
  Smt.verify_prove s.wellFormed key.asBytes

end MemoryStore

end AfroLink
