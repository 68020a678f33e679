import AfroLink.Crypto.Lemmas.Merkle
import AfroLink.Crypto.Sample

/-!
# Merkle proofs are complete and sound

The proof of a leaf is accepted, and nothing but the leaf is accepted in its place.
-/

namespace AfroLink

/-! ## Inclusion -/

/-- All that is hashed in a tree of items, and in checking a proof of one more against it. -/
def inclusionInputs [Crypto] (items : List Bytes) (p : MerkleProof) (data : Bytes) : List Bytes :=
  emptyInput :: ((data :: items).map leafInput ++
    ((MerkleTree.fromItems items).joined ++ p.joined (leafHash data)).map nodeInput)

theorem mem_items_of_verify [Crypto] {items : List Bytes} {p : MerkleProof} {data : Bytes} {i n : Nat}
    (hfree : CollisionFree (inclusionInputs items p data))
    (h : p.verify (MerkleTree.fromItems items).root (leafHash data) i n = .ok ()) : data ∈ items := by
  have hleaves : (data :: items).map leafInput ⊆ inclusionInputs items p data := fun _ hx =>
    .tail _ (List.mem_append_left _ hx)
  have hnodes : ((MerkleTree.fromItems items).joined ++ p.joined (leafHash data)).map nodeInput ⊆
      inclusionInputs items p data := fun _ hx => .tail _ (List.mem_append_right _ hx)
  rw [List.map_append] at hnodes
  obtain ⟨htree, hproof⟩ := List.append_subset.1 hnodes
  obtain ⟨hdata, hitems⟩ := List.cons_subset.1 hleaves
  have hmem := MerkleProof.mem_of_verify hfree htree hproof hitems hdata (.head _) h
  obtain ⟨item, hitem, heq⟩ := List.mem_map.1 hmem
  have hsame := (hfree.hash_inj (hitems (List.mem_map_of_mem hitem)) hdata heq).2
  exact hsame ▸ hitem

/-- The proof of the leaf at a position is accepted there. At a position of the tree's size no other hash is accepted;
where the leaves are hashes of items, no hash of another item is accepted at any position of any size. -/
theorem inclusion_complete_and_sound [Crypto] (t : MerkleTree) :
    (∀ i (h : i < t.leaves.length), ∃ p,
      t.prove i = .ok p ∧ p.verify t.root t.leaves[i] i t.leaves.length = .ok ()) ∧
    (∀ (p : MerkleProof) leaf i, CollisionFree ((t.joined ++ p.joined leaf).map nodeInput) →
      p.verify t.root leaf i t.leaves.length = .ok () → ∃ h : i < t.leaves.length, t.leaves[i] = leaf) ∧
    (∀ items, t = .fromItems items → ∀ p data i n, CollisionFree (inclusionInputs items p data) →
      p.verify t.root (leafHash data) i n = .ok () → data ∈ items ∧ leafHash data ∈ t.leaves) := by
  refine ⟨fun i h => MerkleProof.verify_prove h, ?_, ?_⟩
  · intro p leaf i hfree h
    rw [List.map_append] at hfree
    exact List.getElem?_eq_some_iff.1 (MerkleProof.getElem_of_verify hfree (List.subset_append_left _ _)
      (List.subset_append_right _ _) h)
  · rintro items rfl p data i n hfree h
    have hmem := mem_items_of_verify hfree h
    exact ⟨hmem, List.mem_map_of_mem hmem⟩

namespace Sample

def items : List Bytes := [[1], [2], [3]]

def log : MerkleTree := .fromItems items

/-- The proof of the third item, and the same walk claimed of a tree of two. -/
def thirdOf (index total : Nat) : MerkleProof := ⟨index, total, [nodeHash (leafHash [1]) (leafHash [2])]⟩

theorem inclusion_complete_and_sound_log :
    (∃ p, log.prove 2 = .ok p ∧ p.verify log.root (leafHash [3]) 2 3 = .ok ()) ∧
      (∃ h : 2 < log.leaves.length, log.leaves[2] = leafHash [3]) ∧ [3] ∈ items ∧ leafHash [3] ∈ log.leaves := by
  obtain ⟨hcomplete, hsound, hitems⟩ := inclusion_complete_and_sound log
  exact ⟨hcomplete 2 (by decide), hsound (thirdOf 2 3) (leafHash [3]) 2 (by decide +kernel) (by decide +kernel),
    hitems items rfl (thirdOf 1 2) [3] 1 2 (by decide +kernel) (by decide +kernel)⟩

end Sample

/-! ## Consistency -/

/-- A tree that grew is consistent with its beginning, and with nothing else. -/
theorem consistency_complete_and_sound [Crypto] (t : MerkleTree) (m : Nat) (hm : m ≤ t.leaves.length) :
    (∃ p, t.proveConsistency m = .ok p ∧
      p.verify (MerkleTree.root ⟨t.leaves.take m⟩) t.root m t.leaves.length = .ok ()) ∧
    (∀ (p : ConsistencyProof) r, CollisionFree ((t.joined ++ p.joined r).map nodeInput) →
      p.verify r t.root m t.leaves.length = .ok () → r = MerkleTree.root ⟨t.leaves.take m⟩) := by
  refine ⟨ConsistencyProof.verify_proveConsistency hm, ?_⟩
  intro p r hfree h
  rw [List.map_append] at hfree
  exact ConsistencyProof.root_of_verify hfree (List.subset_append_left _ _) (List.subset_append_right _ _) h

namespace Sample

def grown : ConsistencyProof := ⟨2, 3, [leafHash [3]]⟩

theorem consistency_complete_and_sound_log :
    (∃ p, log.proveConsistency 2 = .ok p ∧
      p.verify (MerkleTree.root ⟨log.leaves.take 2⟩) log.root 2 log.leaves.length = .ok ()) ∧
      nodeHash (leafHash [1]) (leafHash [2]) = MerkleTree.root ⟨log.leaves.take 2⟩ := by
  obtain ⟨hcomplete, hsound⟩ := consistency_complete_and_sound log 2 (by decide)
  exact ⟨hcomplete, hsound grown (nodeHash (leafHash [1]) (leafHash [2])) (by decide +kernel) (by decide +kernel)⟩

end Sample

end AfroLink
