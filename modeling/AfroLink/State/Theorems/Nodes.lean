import AfroLink.State.Lemmas.Nodes
import AfroLink.Crypto.Sample

/-!
# Persisted state reloads

Trees are committed one after the other to one store, and one further commit may stop after any of its writes.
-/

namespace AfroLink.Smt

def Node.children : Node → List Hash32
  | leaf _ _ => []
  | internal left right => [left, right]

/-- A commit writes each node of the tree that is not there, once, and counts the writes. -/
structure WritesNew [Crypto] (t : SparseMerkleTree) (s : MemoryNodes) : Prop where
  mem_iff : ∀ h, h ∈ (commitWrites t s).map Prod.fst ↔ h ∈ t.link.nodes.map Prod.fst ∧ hasNode s h = false
  nodup : ((commitWrites t s).map Prod.fst).Nodup
  nodes : commitWrites t s ⊆ t.link.nodes
  written : (commitTree t s).2.2.written = (commitWrites t s).length
  store : (commitTree t s).2.1 = s.putAll (commitWrites t s)

/-- What the store is for, after the commits `done` and `n` writes of the commit of `last`. -/
structure Reloads [Crypto] (done : List SparseMerkleTree) (last : SparseMerkleTree) (n : Nat) : Prop where
  closed : ∀ h, hasNode (interrupted done last n) h = true → ∃ node : Node, node.hash = h ∧
    (interrupted done last n).nodes[h]? = some (encode node) ∧
    ∀ child ∈ node.children, child = EMPTY ∨ hasNode (interrupted done last n) child = true
  reload : ∀ t ∈ done, ∀ fuel, MAX_PROOF_DEPTH < fuel → ∃ t', loadTree fuel t.root (interrupted done last n) = some t' ∧
    t'.entries = t.entries ∧ t'.len = t.len ∧ t'.root = t.root
  writes : ∀ before t after, done ++ [last] = before ++ t :: after → WritesNew t (commitAll before)

section

variable [Crypto] {done : List SparseMerkleTree} {last : SparseMerkleTree} {n : Nat}

theorem node_of_holds {s : MemoryNodes} {link : Link} (hnode : link ≠ .absent) (hholds : Holds s link) :
    ∃ node : Node, node.hash = link.hash ∧ s.nodes[link.hash]? = some (encode node) ∧
      ∀ child ∈ node.children, child = EMPTY ∨ hasNode s child = true := by
  -- the hash at the top of a subtree that is held is held
  have htop : ∀ {x : Link}, Holds s x → x.hash = EMPTY ∨ hasNode s x.hash = true := by
    intro x hx
    cases x with
    | tip a =>
      cases a with
      | none => exact .inl rfl
      | some e => exact .inr (hasNode_iff.2 ⟨_, hx _ (.head _)⟩)
    | fork l r => exact .inr (hasNode_iff.2 ⟨_, hx (_, _) (List.mem_append_right _ (List.mem_append_right _ (.head _)))⟩)
  cases link with
  | tip a =>
    cases a with
    | none => exact absurd rfl hnode
    | some e => exact ⟨.leaf e.1 e.2, rfl, hholds _ (.head _), fun _ h => (List.not_mem_nil h).elim⟩
  | fork l r =>
    refine ⟨.internal (Link.hash l) (Link.hash r), rfl,
      hholds (_, _) (List.mem_append_right _ (List.mem_append_right _ (.head _))), fun child hchild => ?_⟩
    simp only [Node.children, List.mem_cons, List.not_mem_nil, or_false] at hchild
    rcases hchild with rfl | rfl
    · exact htop hholds.left
    · exact htop hholds.right

theorem writesNew_of_closed {trees : List SparseMerkleTree} (hapart : HashesApart (treeInputs trees))
    {t : SparseMerkleTree} (ht : t ∈ trees) {s : MemoryNodes} (hclosed : Closed trees s) : WritesNew t s := by
  obtain ⟨hstore, htrace, hsub, hholds, -, hwritten⟩ := commitTree_spec hapart ht hclosed
  obtain ⟨hheld, hfresh, hnodup⟩ := hasNode_of_trace htrace
  refine ⟨fun h => ⟨fun hmem => ?_, fun ⟨hmem, hnew⟩ => ?_⟩, hnodup, hsub, hwritten, hstore⟩
  · obtain ⟨w, hw, rfl⟩ := List.mem_map.1 hmem
    exact ⟨List.mem_map_of_mem (hsub hw), hfresh _ hmem⟩
  · -- it is there at the end, and was not there before
    obtain ⟨w, hw, rfl⟩ := List.mem_map.1 hmem
    have hend := (hheld w.1).1 (hasNode_iff.2 ⟨_, hholds w hw⟩)
    rw [hnew] at hend
    exact hend.resolve_left Bool.false_ne_true

theorem interrupted_spec (n : Nat) (hapart : HashesApart (treeInputs (done ++ [last]))) :
    Closed (done ++ [last]) (interrupted done last n) ∧ ∀ t ∈ done, Holds (interrupted done last n) t.link := by
  obtain ⟨hclosed, hholds⟩ := commitAll_spec hapart (List.subset_append_left done [last])
  obtain ⟨-, htrace, -⟩ := commitTree_spec hapart (t := last) (by simp) hclosed
  rw [← List.take_append_drop n (commitWrites last (commitAll done))] at htrace
  obtain ⟨s, hfirst, -⟩ := htrace.of_append fun ⟨w, hw, _⟩ => ⟨w, hw⟩
  rw [interrupted, ← putAll_of_trace hfirst]
  exact ⟨hclosed.trace hfirst, fun t ht => (hholds t ht).trace hfirst⟩

theorem reloads_of_short (hwf : ∀ t ∈ done, t.WellFormed) (hapart : HashesApart (treeInputs (done ++ [last])))
    (hshort : ∀ t ∈ done, ∀ e ∈ t.entries, e.2.length ≤ MAX_FIELD_LEN) : Reloads done last n := by
  obtain ⟨hclosed, hholds⟩ := interrupted_spec n hapart
  refine ⟨fun h hheld => ?_, fun t ht fuel hfuel => ?_, fun before t after hsplit => ?_⟩
  · obtain ⟨link, hnode, -, rfl, hlink⟩ := hclosed h hheld
    exact node_of_holds hnode hlink
  · have hinputs : t.link.inputs ⊆ treeInputs (done ++ [last]) := fun x hx =>
      List.mem_flatMap.2 ⟨t, List.mem_append_left _ ht, hx⟩
    exact ⟨t, loadTree_spec (hwf t ht) (hapart.mono hinputs) (hholds t ht) (hshort t ht) hfuel, rfl, rfl, rfl⟩
  · have hbefore : before ⊆ done ++ [last] := hsplit ▸ List.subset_append_left _ _
    have ht : t ∈ done ++ [last] := hsplit ▸ List.mem_append_right _ (.head _)
    exact writesNew_of_closed hapart ht (commitAll_spec hapart hbefore).1

theorem short_of_reloads (hapart : HashesApart (treeInputs (done ++ [last]))) (h : Reloads done last n) :
    ∀ t ∈ done, ∀ e ∈ t.entries, e.2.length ≤ MAX_FIELD_LEN := by
  intro t ht e he
  by_contra hlong
  obtain ⟨t', hload, -⟩ := h.reload t ht (MAX_PROOF_DEPTH + 1) (Nat.lt_succ_self _)
  have hinputs : t.link.inputs ⊆ treeInputs (done ++ [last]) := fun x hx =>
    List.mem_flatMap.2 ⟨t, List.mem_append_left _ ht, hx⟩
  rw [SparseMerkleTree.entries_eq] at he
  have hnone := collect_long (hapart.mono hinputs) ((interrupted_spec n hapart).2 t ht) he (not_le.1 hlong)
    (MAX_PROOF_DEPTH + 1) ∅
  rw [loadTree, SparseMerkleTree.root, hnone] at hload
  cases hload

end

/-- For trees built by insertions and removals, without a collision among what is hashed in them: the store does what it
is for exactly if no value of a committed tree is longer than the decoder accepts. -/
theorem persisted_state_reloads_iff [Crypto] (done : List SparseMerkleTree) (last : SparseMerkleTree) (n : Nat)
    (hbuilt : ∀ t ∈ done ++ [last], ∃ ops, t = SparseMerkleTree.build ops)
    (hapart : HashesApart (treeInputs (done ++ [last]))) :
    Reloads done last n ↔ ∀ t ∈ done, ∀ e ∈ t.entries, e.2.length ≤ MAX_FIELD_LEN := by
  refine ⟨short_of_reloads hapart, reloads_of_short (fun t ht => ?_) hapart⟩
  obtain ⟨ops, rfl⟩ := hbuilt t (List.mem_append_left _ ht)
  exact SparseMerkleTree.wellFormed_build ops

namespace Sample

open AfroLink.Sample

def first : SparseMerkleTree := .build [.insert [1] [10], .insert [2] [20]]
def second : SparseMerkleTree := .build [.insert [1] [10], .insert [2] [21], .insert [3] [30]]

theorem persisted_state_reloads_second :
    Reloads [first] second 1 ∧ ∀ t ∈ [first], ∀ e ∈ t.entries, e.2.length ≤ MAX_FIELD_LEN := by
  have hshort : ∀ t ∈ [first], ∀ e ∈ t.entries, e.2.length ≤ MAX_FIELD_LEN := by decide +kernel
  have hiff := persisted_state_reloads_iff [first] second 1 (by
    intro t ht
    simp only [List.cons_append, List.nil_append, List.mem_cons, List.not_mem_nil, or_false] at ht
    rcases ht with rfl | rfl
    · exact ⟨_, rfl⟩
    · exact ⟨_, rfl⟩) (by decide +kernel)
  exact ⟨hiff.2 hshort, hshort⟩

end Sample

namespace Measured

scoped instance : Crypto where
  blake3 bytes := Fin.ofNat (2 ^ 256) (bytes.length + 1)
  verifyingKey sk := ⟨sk.bytes⟩
  sign sk message := AfroLink.Sample.signature sk.bytes message
  verifyStrict _ _ _ := true

theorem blake3_inj {x y : Bytes} (hx : x.length < 2 ^ 255) (hy : y.length < 2 ^ 255)
    (h : Crypto.blake3 x = Crypto.blake3 y) : x.length = y.length := by
  have hval : (x.length + 1) % 2 ^ 256 = (y.length + 1) % 2 ^ 256 := congrArg Fin.val h
  omega

theorem blake3_ne_empty {x : Bytes} (hx : x.length < 2 ^ 255) : Crypto.blake3 x ≠ EMPTY := by
  intro h
  have hval : (x.length + 1) % 2 ^ 256 = 0 := congrArg Fin.val h
  omega

/-- A tree of one entry, one byte longer than the decoder accepts. -/
def oversized : SparseMerkleTree := .build [.insert [1] (List.replicate (MAX_FIELD_LEN + 1) 0)]

theorem length_domain : (absorbDomain .stateLeaf).length = 26 := by decide +kernel

theorem leaf_apart {key value : Bytes} (hlong : 64 < value.length) (hshort : value.length < 2 ^ 128) :
    HashesApart (treeInputs [.build [.insert key value], .new]) := by
  have hinputs : treeInputs [.build [.insert key value], .new] = leafInputs (keyHash key, value) := rfl
  have hvalue : (absorbDomain .stateLeaf ++ value).length = 26 + value.length := by
    rw [List.length_append, length_domain]
  have hleaf : ∀ pair, (pairInput .stateLeaf pair).length = 90 := by
    intro pair
    rw [pairInput, List.length_append, List.length_append, length_domain, Hash32.length_asBytes,
      Hash32.length_asBytes]
  have hsmall : ∀ x ∈ leafInputs (keyHash key, value), x.length < 2 ^ 255 := by
    intro x hx
    simp only [leafInputs, List.mem_cons, List.not_mem_nil, or_false] at hx
    rcases hx with rfl | rfl
    · rw [hvalue]
      omega
    · rw [hleaf]
      omega
  rw [hinputs]
  refine ⟨fun x hx y hy heq => ?_, fun x hx => blake3_ne_empty (hsmall x hx)⟩
  have hlen := blake3_inj (hsmall x hx) (hsmall y hy) heq
  simp only [leafInputs, List.mem_cons, List.not_mem_nil, or_false] at hx hy
  rcases hx with rfl | rfl <;> rcases hy with rfl | rfl
  · rfl
  · rw [hvalue, hleaf] at hlen
    omega
  · rw [hvalue, hleaf] at hlen
    omega
  · rfl

theorem oversized_not_reloaded : ¬ Reloads [oversized] .new 0 := by
  intro h
  have hlen : (List.replicate (MAX_FIELD_LEN + 1) (0 : U8)).length = MAX_FIELD_LEN + 1 := List.length_replicate
  have hapart : HashesApart (treeInputs ([oversized] ++ [.new])) :=
    leaf_apart (by rw [hlen]; decide) (by rw [hlen]; decide)
  have hshort := short_of_reloads hapart h oversized (.head _) (keyHash [1], List.replicate (MAX_FIELD_LEN + 1) 0)
    (.head _)
  rw [hlen] at hshort
  omega

end Measured

end AfroLink.Smt
