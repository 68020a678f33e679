import AfroLink.Base.Effect
import AfroLink.Base.HashTree
import AfroLink.Crypto.Merkle
import AfroLink.Crypto.Lemmas.Hashing

/-!
# Merkle proofs as climbs

The root of a list of leaves is the digest of a tree of hashes, and an inclusion proof climbs it.
-/

namespace AfroLink

/-! ## The split point -/

theorem splitPointFrom_spec (fuel : Nat) {j n : Nat} (h : 2 ^ j < n) (hfuel : n ≤ 2 ^ (j + fuel + 1)) :
    ∃ i, splitPointFrom fuel (2 ^ j) n = 2 ^ i ∧ 2 ^ i < n ∧ n ≤ 2 ^ (i + 1) := by
  induction fuel generalizing j with
  | zero => exact ⟨j, rfl, h, hfuel⟩
  | succ fuel ih =>
    unfold splitPointFrom
    split
    next hdouble =>
        rw [← Nat.pow_succ] at hdouble ⊢
        exact ih hdouble (hfuel.trans_eq (by congr 1; omega))
    next hdouble => exact ⟨j, rfl, h, by rw [Nat.pow_succ]; omega⟩

/-- The split point is the power of two that is below the length but not below half of it. -/
theorem splitPoint_spec {n : Nat} (h : 2 ≤ n) : ∃ i, splitPoint n = 2 ^ i ∧ 2 ^ i < n ∧ n ≤ 2 ^ (i + 1) := by
  have hfuel : n ≤ 2 ^ (0 + n + 1) := by
    have hn : n < 2 ^ n := Nat.lt_two_pow_self
    rw [Nat.zero_add, Nat.pow_succ]
    omega
  exact splitPointFrom_spec n (j := 0) h hfuel

theorem splitPoint_bounds {n : Nat} (h : 2 ≤ n) : 0 < splitPoint n ∧ splitPoint n < n := by
  obtain ⟨i, hi, hlt, -⟩ := splitPoint_spec h
  exact ⟨hi ▸ Nat.two_pow_pos i, hi ▸ hlt⟩

theorem splitPoint_between {m n : Nat} (hn : 2 ≤ n) (hm : splitPoint n < m) (hmn : m ≤ n) :
    splitPoint m = splitPoint n := by
  have hpos := (splitPoint_bounds hn).1
  obtain ⟨i, hi, -, hupper⟩ := splitPoint_spec hn
  obtain ⟨j, hj, hlt, hle⟩ := splitPoint_spec (show 2 ≤ m by omega)
  rw [hi] at hm ⊢
  rw [hj]
  congr 1
  have hij : i ≤ j := Nat.lt_succ_iff.1 ((Nat.pow_lt_pow_iff_right (by omega)).1 (hm.trans_le hle))
  have hji : j ≤ i := Nat.lt_succ_iff.1 ((Nat.pow_lt_pow_iff_right (by omega)).1 (hlt.trans_le (hmn.trans hupper)))
  omega

/-- What holds of a list whose two parts have it, and of those that are not split, holds of every list. -/
theorem leaves_induction {α : Type} {P : List α → Prop} (nil : P []) (one : ∀ a, P [a])
    (split : ∀ l, 2 ≤ l.length → P (l.take (splitPoint l.length)) → P (l.drop (splitPoint l.length)) → P l)
    (l : List α) : P l := by
  induction hn : l.length using Nat.strong_induction_on generalizing l with
  | _ n ih =>
    match l, hn with
    | [], _ => exact nil
    | [a], _ => exact one a
    | a :: b :: l, hn =>
      have hlen : 2 ≤ (a :: b :: l).length := by simp
      have hk := splitPoint_bounds hlen
      refine split _ hlen (ih _ ?_ _ rfl) (ih _ ?_ _ rfl)
      · rw [List.length_take]
        omega
      · rw [List.length_drop]
        omega

/-! ## Roots -/

variable [Crypto] {leaves : List Hash32}

theorem rootOf_split (fuel : Nat) (h : 2 ≤ leaves.length) :
    rootOf (fuel + 1) leaves =
      nodeHash (rootOf fuel (leaves.take (splitPoint leaves.length)))
        (rootOf fuel (leaves.drop (splitPoint leaves.length))) := by
  match leaves, h with
  | _ :: _ :: _, _ => rfl

theorem rootOf_fuel (leaves : List Hash32) :
    ∀ fuel, leaves.length ≤ fuel → rootOf fuel leaves = leavesRoot leaves := by
  induction leaves using leaves_induction with
  | nil => intros; simp [leavesRoot, rootOf]
  | one a => intros; simp [leavesRoot, rootOf]
  | split l h ihl ihr =>
    have hk := splitPoint_bounds h
    -- both parts are shorter than the whole, so either fuel is enough for them
    have hroot : ∀ fuel, l.length ≤ fuel → rootOf fuel l = nodeHash (leavesRoot (l.take (splitPoint l.length)))
        (leavesRoot (l.drop (splitPoint l.length))) := by
      intro fuel hfuel
      obtain ⟨fuel, rfl⟩ : ∃ f, fuel = f + 1 := ⟨fuel - 1, by omega⟩
      rw [rootOf_split fuel h, ihl fuel (by rw [List.length_take]; omega), ihr fuel (by rw [List.length_drop]; omega)]
    intro fuel hfuel
    exact (hroot fuel hfuel).trans (hroot l.length le_rfl).symm

theorem leavesRoot_split (h : 2 ≤ leaves.length) :
    leavesRoot leaves = nodeHash (leavesRoot (leaves.take (splitPoint leaves.length)))
      (leavesRoot (leaves.drop (splitPoint leaves.length))) := by
  have hk := splitPoint_bounds h
  rw [← rootOf_fuel leaves (leaves.length + 1) (by omega), rootOf_split _ h, rootOf_fuel _ _ (by simp),
    rootOf_fuel _ _ (by simp)]

/-! ## The tree of a list of leaves -/

namespace MerkleTree

omit [Crypto] in
/-- The tree `rootOf` hashes; the empty list has a tip without a leaf. -/
def hashTree : Nat → List Hash32 → HashTree (Option Hash32)
  | _, [] => .tip none
  | _, [only] => .tip (some only)
  | 0, _ => .tip none
  | fuel + 1, leaves =>
    let k := splitPoint leaves.length
    .fork (hashTree fuel (leaves.take k)) (hashTree fuel (leaves.drop k))

def tipHash (leaf : Option Hash32) : Hash32 := leaf.getD emptyRoot

omit [Crypto] in
def tree (t : MerkleTree) : HashTree (Option Hash32) := hashTree t.leaves.length t.leaves

def joined (t : MerkleTree) : List (Hash32 × Hash32) := t.tree.joins tipHash nodeHash

theorem digest_hashTree (fuel : Nat) (leaves : List Hash32) :
    (hashTree fuel leaves).digest tipHash nodeHash = rootOf fuel leaves := by
  induction fuel generalizing leaves with
  | zero => match leaves with
    | [] => rfl
    | [_] => rfl
    | _ :: _ :: _ => rfl
  | succ fuel ih => match leaves with
    | [] => rfl
    | [_] => rfl
    | _ :: _ :: _ => exact congrArg₂ nodeHash (ih _) (ih _)

omit [Crypto] in
theorem hashTree_split (fuel : Nat) (h : 2 ≤ leaves.length) :
    hashTree (fuel + 1) leaves = .fork (hashTree fuel (leaves.take (splitPoint leaves.length)))
      (hashTree fuel (leaves.drop (splitPoint leaves.length))) := by
  match leaves, h with
  | _ :: _ :: _, _ => rfl

omit [Crypto] in
theorem tips_hashTree (fuel : Nat) (leaves : List Hash32) (a : Hash32) (h : some a ∈ (hashTree fuel leaves).tips) :
    a ∈ leaves := by
  induction fuel generalizing leaves with
  | zero => match leaves with
    | [] => simp [hashTree, HashTree.tips] at h
    | [_] => simpa [hashTree, HashTree.tips] using h
    | _ :: _ :: _ => simp [hashTree, HashTree.tips] at h
  | succ fuel ih => match leaves with
    | [] => simp [hashTree, HashTree.tips] at h
    | [_] => simpa [hashTree, HashTree.tips] using h
    | _ :: _ :: _ =>
      cases List.mem_append.1 h with
      | inl hl => exact List.mem_of_mem_take (ih _ hl)
      | inr hr => exact List.mem_of_mem_drop (ih _ hr)

theorem path_frames (leaves : List Hash32) : ∀ fuel i, leaves.length ≤ fuel → i < leaves.length →
    (hashTree fuel leaves).descend ((MerkleProof.frames fuel i leaves.length).map not) = some (.tip leaves[i]?) ∧
      ((hashTree fuel leaves).siblings tipHash nodeHash ((MerkleProof.frames fuel i leaves.length).map not)).map
        Prod.snd = collectSiblings fuel leaves i := by
  induction leaves using leaves_induction with
  | nil => intro _ i _ hi; simp at hi
  | one a =>
    intro fuel i hfuel hi
    obtain ⟨fuel, rfl⟩ : ∃ f, fuel = f + 1 := ⟨fuel - 1, by simp at hfuel; omega⟩
    have hi : i = 0 := by simpa using hi
    subst hi
    simp [MerkleProof.frames, hashTree, collectSiblings, HashTree.descend, HashTree.siblings]
  | split l h ihl ihr =>
    intro fuel i hfuel hi
    obtain ⟨hpos, hlt⟩ := splitPoint_bounds h
    have htake : (l.take (splitPoint l.length)).length = splitPoint l.length := by
      rw [List.length_take]
      omega
    have hdrop : (l.drop (splitPoint l.length)).length = l.length - splitPoint l.length := List.length_drop
    obtain ⟨fuel, rfl⟩ : ∃ f, fuel = f + 1 := ⟨fuel - 1, by omega⟩
    have hmany : l.length > 1 := h
    have hfew : ¬ l.length ≤ 1 := by omega
    rw [hashTree_split fuel h]
    by_cases hside : i < splitPoint l.length
    · obtain ⟨hpath, hsiblings⟩ := ihl fuel i (by omega) (by omega)
      rw [htake] at hpath hsiblings
      rw [List.getElem?_take_of_lt hside] at hpath
      simp only [MerkleProof.frames, collectSiblings, if_pos hmany, if_neg hfew, if_pos hside, List.map_cons,
        Bool.not_true, HashTree.descend, HashTree.siblings, cond_false, digest_hashTree, hpath, hsiblings]
      rw [rootOf_fuel _ _ (by omega)]
      exact ⟨trivial, rfl⟩
    · obtain ⟨hpath, hsiblings⟩ := ihr fuel (i - splitPoint l.length) (by omega) (by omega)
      rw [hdrop] at hpath hsiblings
      rw [List.getElem?_drop, Nat.add_sub_cancel' (by omega)] at hpath
      simp only [MerkleProof.frames, collectSiblings, if_pos hmany, if_neg hfew, if_neg hside, List.map_cons,
        Bool.not_false, HashTree.descend, HashTree.siblings, cond_true, digest_hashTree, hpath, hsiblings]
      rw [rootOf_fuel _ _ (by omega)]
      exact ⟨trivial, rfl⟩

theorem root_eq_digest (t : MerkleTree) : t.root = t.tree.digest tipHash nodeHash := (digest_hashTree _ _).symm

end MerkleTree

/-! ## Inclusion -/

namespace MerkleProof

omit [Crypto] in
def path (p : MerkleProof) : List (Bool × Hash32) := ((frames p.total p.index p.total).map not).zip p.siblings

def joined (p : MerkleProof) (leaf : Hash32) : List (Hash32 × Hash32) := climbed nodeHash p.path leaf

theorem replay_eq_climb (steps : List (Bool × Hash32)) (acc : Hash32) :
    replay (steps.map fun s => !s.1).reverse (steps.map Prod.snd).reverse acc = .ok (climb nodeHash steps acc) := by
  induction steps using List.reverseRecOn generalizing acc with
  | nil => rfl
  | append_singleton steps step ih =>
    obtain ⟨right, sibling⟩ := step
    rw [climb_append, ← ih]
    cases right <;> simp [replay, climb, beside]

omit [Crypto] in
theorem path_fst {p : MerkleProof} (h : (frames p.total p.index p.total).length = p.siblings.length) :
    p.path.map Prod.fst = (frames p.total p.index p.total).map not := List.map_fst_zip (by simp [h])

theorem computeRoot_eq_ok {p : MerkleProof} {leaf root : Hash32} :
    p.computeRoot leaf = .ok root ↔ p.index < p.total ∧
      (frames p.total p.index p.total).length = p.siblings.length ∧ climb nodeHash p.path leaf = root := by
  unfold computeRoot
  split
  next hrange => simp; omega
  next hrange =>
    dsimp only
    split
    next hlen => simp [hlen]
    next hlen =>
      have hlen := not_not.1 hlen
      have hframes : (p.path.map fun s => !s.1) = frames p.total p.index p.total := by
        have hnot := congrArg (List.map not) (path_fst hlen)
        simpa [Function.comp_def] using hnot
      have hsnd : p.path.map Prod.snd = p.siblings := List.map_snd_zip (by simp [hlen])
      have hclimb := replay_eq_climb p.path leaf
      rw [hframes, hsnd] at hclimb
      rw [hclimb]
      simp [hlen]
      omega

theorem verify_eq_ok {p : MerkleProof} {root leaf : Hash32} {index total : Nat} :
    p.verify root leaf index total = .ok () ↔ p.index = index ∧ p.total = total ∧ p.computeRoot leaf = .ok root := by
  unfold verify
  dsimp only
  rw [Except.guard_eq_ok, Except.bind_eq_ok, not_or, not_not, not_not, and_assoc]
  refine and_congr_right fun _ => and_congr_right fun _ => ?_
  constructor
  · rintro ⟨root', hroot, hcheck⟩
    split at hcheck
    next heq => rwa [← heq]
    next => cases hcheck
  · intro hroot
    exact ⟨root, hroot, if_pos rfl⟩

end MerkleProof

/-! ## Collisions -/

omit [Crypto] in
def nodeInput (pair : Hash32 × Hash32) : Bytes := pairInput .merkleNode pair

omit [Crypto] in
def leafInput (data : Bytes) : Bytes := absorbDomain .merkleLeaf ++ data

omit [Crypto] in
def emptyInput : Bytes := absorbDomain .merkleNode ++ []

namespace CollisionFree

variable {inputs : List Bytes}

theorem nodeHash_inj (h : CollisionFree inputs) {p q : Hash32 × Hash32} (hp : nodeInput p ∈ inputs)
    (hq : nodeInput q ∈ inputs) (heq : nodeHash p.1 p.2 = nodeHash q.1 q.2) : p = q := h.pair_inj hp hq heq

theorem leafHash_ne_nodeHash (h : CollisionFree inputs) {data : Bytes} {q : Hash32 × Hash32}
    (hdata : leafInput data ∈ inputs) (hq : nodeInput q ∈ inputs) : leafHash data ≠ nodeHash q.1 q.2 := by
  intro heq
  rw [nodeHash, hashParts_pair] at heq
  cases (h.hash_inj hdata hq heq).1

theorem leafHash_ne_emptyRoot (h : CollisionFree inputs) {data : Bytes} (hdata : leafInput data ∈ inputs)
    (hempty : emptyInput ∈ inputs) : leafHash data ≠ emptyRoot := by
  intro heq
  cases (h.hash_inj hdata hempty heq).1

theorem emptyRoot_ne_nodeHash (h : CollisionFree inputs) {q : Hash32 × Hash32} (hempty : emptyInput ∈ inputs)
    (hq : nodeInput q ∈ inputs) : emptyRoot ≠ nodeHash q.1 q.2 := by
  intro heq
  rw [nodeHash, hashParts_pair] at heq
  have hlen := congrArg List.length (h.hash_inj hempty hq heq).2
  simp [Hash32.length_asBytes] at hlen

theorem unmixed {t : MerkleTree} {pairs : List (Hash32 × Hash32)} (h : CollisionFree inputs)
    (htree : t.joined.map nodeInput ⊆ inputs) (hpairs : pairs.map nodeInput ⊆ inputs) :
    HashTree.Unmixed MerkleTree.tipHash nodeHash t.tree pairs := fun _ hp _ hq heq =>
  h.nodeHash_inj (htree (List.mem_map_of_mem hp)) (hpairs (List.mem_map_of_mem hq)) heq

end CollisionFree

namespace MerkleProof

variable {t : MerkleTree} {p : MerkleProof} {leaf : Hash32} {inputs : List Bytes}

theorem verify_prove {i : Nat} (h : i < t.leaves.length) :
    ∃ p, t.prove i = .ok p ∧ p.verify t.root t.leaves[i] i t.leaves.length = .ok () := by
  obtain ⟨hpath, hsiblings⟩ := MerkleTree.path_frames t.leaves t.leaves.length i le_rfl h
  obtain ⟨hclimb, hdirs⟩ : climb nodeHash (t.tree.siblings MerkleTree.tipHash nodeHash _) _ = _ ∧ _ :=
    HashTree.climb_siblings hpath
  refine ⟨⟨i, t.leaves.length, MerkleTree.collectSiblings t.leaves.length t.leaves i⟩, if_neg (not_le.2 h), ?_⟩
  refine verify_eq_ok.2 ⟨rfl, rfl, computeRoot_eq_ok.2 ⟨h, ?_, ?_⟩⟩
  · have hlen := congrArg List.length hdirs
    rw [← hsiblings, List.length_map]
    rw [List.length_map, List.length_map] at hlen
    exact hlen.symm
  · have hzip : path ⟨i, t.leaves.length, MerkleTree.collectSiblings t.leaves.length t.leaves i⟩ = t.tree.siblings
        MerkleTree.tipHash nodeHash ((frames t.leaves.length i t.leaves.length).map not) := by
      rw [path, ← hsiblings]
      nth_rewrite 1 [← hdirs]
      exact (List.zip_of_prod rfl rfl).symm
    rw [hzip, t.root_eq_digest]
    rw [List.getElem?_eq_getElem h] at hclimb
    exact hclimb

theorem getElem_of_verify (hfree : CollisionFree inputs) (htree : t.joined.map nodeInput ⊆ inputs)
    (hproof : (p.joined leaf).map nodeInput ⊆ inputs) {i : Nat}
    (h : p.verify t.root leaf i t.leaves.length = .ok ()) : t.leaves[i]? = some leaf := by
  obtain ⟨rfl, htotal, hroot⟩ := verify_eq_ok.1 h
  obtain ⟨hindex, hlen, hclimb⟩ := computeRoot_eq_ok.1 hroot
  rw [t.root_eq_digest] at hclimb
  have hpath := (MerkleTree.path_frames t.leaves t.leaves.length p.index le_rfl (htotal ▸ hindex)).1
  rw [← htotal, ← path_fst hlen] at hpath
  have htip := HashTree.digest_of_climb (hfree.unmixed htree hproof) hclimb (by rwa [MerkleTree.tree, ← htotal])
  rw [List.getElem?_eq_getElem (htotal ▸ hindex)] at htip ⊢
  exact congrArg some htip

theorem mem_of_verify {items : List Bytes} {data : Bytes} (hfree : CollisionFree inputs)
    (htree : (MerkleTree.fromItems items).joined.map nodeInput ⊆ inputs)
    (hproof : (p.joined (leafHash data)).map nodeInput ⊆ inputs) (hitems : items.map leafInput ⊆ inputs)
    (hdata : leafInput data ∈ inputs) (hempty : emptyInput ∈ inputs) {i n : Nat}
    (h : p.verify (MerkleTree.fromItems items).root (leafHash data) i n = .ok ()) :
    leafHash data ∈ items.map leafHash := by
  obtain ⟨-, -, hroot⟩ := verify_eq_ok.1 h
  obtain ⟨-, -, hclimb⟩ := computeRoot_eq_ok.1 hroot
  rw [MerkleTree.root_eq_digest] at hclimb
  -- no tip is the hash of an inner node, so the proof cannot go on below one
  have htips : ∀ a ∈ (MerkleTree.fromItems items).tree.tips, ∀ q ∈ p.joined (leafHash data),
      MerkleTree.tipHash a ≠ nodeHash q.1 q.2 := by
    intro a ha q hq
    have hq := hproof (List.mem_map_of_mem hq)
    cases a with
    | none => exact hfree.emptyRoot_ne_nodeHash hempty hq
    | some leaf =>
      obtain ⟨item, hitem, rfl⟩ := List.mem_map.1 (MerkleTree.tips_hashTree _ _ _ ha)
      exact hfree.leafHash_ne_nodeHash (hitems (List.mem_map_of_mem hitem)) hq
  obtain ⟨sub, hsub, hdigest⟩ := HashTree.descend_of_climb (hfree.unmixed htree hproof) hclimb htips
  -- nor is the leaf the hash of an inner node, so the proof ends at a tip
  cases sub with
  | tip a =>
    have ha := HashTree.tips_of_descend hsub (.head _)
    cases a with
    | none => exact absurd hdigest.symm (hfree.leafHash_ne_emptyRoot hdata hempty)
    | some leaf =>
      have hleaf : leaf = leafHash data := hdigest
      exact hleaf ▸ MerkleTree.tips_hashTree _ _ _ ha
  | fork l r =>
    have hpair : (l.digest MerkleTree.tipHash nodeHash, r.digest MerkleTree.tipHash nodeHash) ∈
        (MerkleTree.fromItems items).joined := HashTree.joins_of_descend hsub (.head _)
    have hne := hfree.leafHash_ne_nodeHash hdata (htree (List.mem_map_of_mem hpair))
    exact absurd hdigest.symm hne

end MerkleProof

/-! ## Consistency -/

/-- Past the split of the whole, a beginning of the list has the root of the left part beside that of what it has of
the right part. -/
theorem leavesRoot_take {m : Nat} (h : 2 ≤ leaves.length) (hm : splitPoint leaves.length < m)
    (hle : m ≤ leaves.length) :
    leavesRoot (leaves.take m) = nodeHash (leavesRoot (leaves.take (splitPoint leaves.length)))
      (leavesRoot ((leaves.drop (splitPoint leaves.length)).take (m - splitPoint leaves.length))) := by
  have hpos := (splitPoint_bounds h).1
  have hlen : (leaves.take m).length = m := by
    rw [List.length_take]
    omega
  rw [leavesRoot_split (by omega), hlen, splitPoint_between h hm hle, List.take_take, min_eq_left hm.le,
    List.drop_take]

namespace ConsistencyProof

omit [Crypto] in
theorem nextNode_reads (h : Hash32) : Reads nextNode [h] h := fun _ => rfl

section

variable {fuel m n : Nat} {isTop : Bool} {knownOld : Hash32}

theorem replay_left (hne : m ≠ n) (hle : m ≤ splitPoint n) : replay (fuel + 1) m n isTop knownOld = do
    let (old, newLeft) ← replay fuel m (splitPoint n) isTop knownOld
    let right ← nextNode
    return (old, nodeHash newLeft right) := by
  rw [replay, if_neg hne]
  exact if_pos hle

theorem replay_right (hne : m ≠ n) (hlt : ¬ m ≤ splitPoint n) : replay (fuel + 1) m n isTop knownOld = do
    let (oldRight, newRight) ← replay fuel (m - splitPoint n) (n - splitPoint n) false knownOld
    let left ← nextNode
    return (nodeHash left oldRight, nodeHash left newRight) := by
  rw [replay, if_neg hne]
  exact if_neg hlt

theorem replay_self {nodes rest : List Hash32} {old new : Hash32}
    (h : (replay fuel n n isTop knownOld).run nodes = .ok ((old, new), rest)) : old = new := by
  cases fuel with
  | zero => cases h
  | succ fuel =>
    rw [replay, if_pos rfl] at h
    cases isTop with
    | true =>
      cases h
      rfl
    | false => cases nodes with
      | nil => cases h
      | cons node nodes =>
        cases h
        rfl

theorem replay_self_reads (h : leaves.length ≤ fuel) (hpos : 0 < leaves.length)
    (hold : isTop = true → knownOld = leavesRoot leaves) :
    Reads (replay fuel leaves.length leaves.length isTop knownOld)
      (MerkleTree.collectConsistency fuel leaves leaves.length isTop) (leavesRoot leaves, leavesRoot leaves) := by
  obtain ⟨fuel, rfl⟩ : ∃ f, fuel = f + 1 := ⟨fuel - 1, by omega⟩
  rw [replay, MerkleTree.collectConsistency, if_pos rfl, if_pos rfl]
  cases isTop with
  | true =>
    rw [hold rfl]
    exact .pure _
  | false => exact (nextNode_reads _).last

end

theorem replay_reads (leaves : List Hash32) : ∀ fuel m isTop knownOld, leaves.length ≤ fuel → 0 < m →
    m ≤ leaves.length → (isTop = true → knownOld = leavesRoot (leaves.take m)) →
    Reads (replay fuel m leaves.length isTop knownOld) (MerkleTree.collectConsistency fuel leaves m isTop)
      (leavesRoot (leaves.take m), leavesRoot leaves) := by
  -- the whole list is its own beginning, in each of the cases
  have hself : ∀ (l : List Hash32) fuel isTop knownOld, l.length ≤ fuel → 0 < l.length →
      (isTop = true → knownOld = leavesRoot (l.take l.length)) →
      Reads (replay fuel l.length l.length isTop knownOld) (MerkleTree.collectConsistency fuel l l.length isTop)
        (leavesRoot (l.take l.length), leavesRoot l) := by
    intro l fuel isTop knownOld hfuel hpos hold
    rw [List.take_length] at hold ⊢
    exact replay_self_reads hfuel hpos hold
  induction leaves using leaves_induction with
  | nil =>
    intro fuel m _ _ _ hpos hm _
    simp at hm
    omega
  | one a =>
    intro fuel m isTop knownOld hfuel hpos hm hold
    obtain rfl : m = [a].length := by simp at hm ⊢; omega
    exact hself [a] fuel isTop knownOld hfuel hpos hold
  | split l h ihl ihr =>
    intro fuel m isTop knownOld hfuel hpos hm hold
    obtain rfl | hlt := hm.eq_or_lt
    · exact hself l fuel isTop knownOld hfuel hpos hold
    obtain ⟨hk, hkn⟩ := splitPoint_bounds h
    have htake : (l.take (splitPoint l.length)).length = splitPoint l.length := by
      rw [List.length_take]
      omega
    have hdrop : (l.drop (splitPoint l.length)).length = l.length - splitPoint l.length := List.length_drop
    obtain ⟨fuel, rfl⟩ : ∃ f, fuel = f + 1 := ⟨fuel - 1, by omega⟩
    rw [MerkleTree.collectConsistency, if_neg hlt.ne, leavesRoot_split h]
    by_cases hside : m ≤ splitPoint l.length
    · have hpart : (l.take (splitPoint l.length)).take m = l.take m := by rw [List.take_take, min_eq_left hside]
      have hleft := ihl fuel m isTop knownOld (by omega) hpos (by omega) (by rwa [hpart])
      rw [htake, hpart] at hleft
      rw [replay_left hlt.ne hside]
      dsimp only
      rw [if_pos hside]
      exact hleft.bind (nextNode_reads _).last
    · have hright := ihr fuel (m - splitPoint l.length) false knownOld (by omega) (by omega) (by omega) (by simp)
      rw [hdrop] at hright
      rw [replay_right hlt.ne hside, leavesRoot_take h (not_le.1 hside) hm]
      dsimp only
      rw [if_neg hside]
      exact hright.bind (nextNode_reads _).last

/-- The pairs of hashes joined on the way to the new root. -/
def joinedFrom : Nat → Nat → Nat → Bool → Hash32 → List Hash32 → List (Hash32 × Hash32)
  | 0, _, _, _, _, _ => []
  | fuel + 1, m, n, isTop, knownOld, nodes =>
    if m = n then []
    else
      let k := splitPoint n
      if m ≤ k then
        match (replay fuel m k isTop knownOld).run nodes with
        | .ok ((_, newLeft), right :: _) => (newLeft, right) :: joinedFrom fuel m k isTop knownOld nodes
        | _ => []
      else
        match (replay fuel (m - k) (n - k) false knownOld).run nodes with
        | .ok ((_, newRight), left :: _) => (left, newRight) :: joinedFrom fuel (m - k) (n - k) false knownOld nodes
        | _ => []

def joined (p : ConsistencyProof) (oldRoot : Hash32) : List (Hash32 × Hash32) :=
  joinedFrom p.newSize p.oldSize p.newSize true oldRoot p.nodes

section

variable {fuel m n : Nat} {isTop : Bool} {knownOld old new : Hash32} {nodes rest : List Hash32}

theorem replay_left_inv (hne : m ≠ n) (hle : m ≤ splitPoint n)
    (h : (replay (fuel + 1) m n isTop knownOld).run nodes = .ok ((old, new), rest)) : ∃ newLeft right,
      (replay fuel m (splitPoint n) isTop knownOld).run nodes = .ok ((old, newLeft), right :: rest) ∧
      new = nodeHash newLeft right ∧ joinedFrom (fuel + 1) m n isTop knownOld nodes =
        (newLeft, right) :: joinedFrom fuel m (splitPoint n) isTop knownOld nodes := by
  rw [replay_left hne hle, StateT.run_bind, Except.bind_eq_ok] at h
  obtain ⟨⟨⟨old', newLeft⟩, nodes'⟩, hleft, h⟩ := h
  cases nodes' with
  | nil => cases h
  | cons right nodes' =>
    cases h
    refine ⟨newLeft, right, hleft, rfl, ?_⟩
    simp only [joinedFrom, if_neg hne, if_pos hle, hleft]

theorem replay_right_inv (hne : m ≠ n) (hlt : ¬ m ≤ splitPoint n)
    (h : (replay (fuel + 1) m n isTop knownOld).run nodes = .ok ((old, new), rest)) : ∃ left oldRight newRight,
      (replay fuel (m - splitPoint n) (n - splitPoint n) false knownOld).run nodes =
        .ok ((oldRight, newRight), left :: rest) ∧
      old = nodeHash left oldRight ∧ new = nodeHash left newRight ∧
      joinedFrom (fuel + 1) m n isTop knownOld nodes =
        (left, newRight) :: joinedFrom fuel (m - splitPoint n) (n - splitPoint n) false knownOld nodes := by
  rw [replay_right hne hlt, StateT.run_bind, Except.bind_eq_ok] at h
  obtain ⟨⟨⟨oldRight, newRight⟩, nodes'⟩, hright, h⟩ := h
  cases nodes' with
  | nil => cases h
  | cons left nodes' =>
    cases h
    refine ⟨left, oldRight, newRight, hright, rfl, rfl, ?_⟩
    simp only [joinedFrom, if_neg hne, if_neg hlt, hright]

end

theorem replay_sound (leaves : List Hash32) : ∀ fuel m isTop knownOld nodes old rest, leaves.length ≤ fuel → 0 < m →
    m ≤ leaves.length →
    HashTree.Unmixed MerkleTree.tipHash nodeHash (MerkleTree.hashTree fuel leaves)
      (joinedFrom fuel m leaves.length isTop knownOld nodes) →
    (replay fuel m leaves.length isTop knownOld).run nodes = .ok ((old, leavesRoot leaves), rest) →
    old = leavesRoot (leaves.take m) := by
  have hself : ∀ (l : List Hash32) fuel isTop knownOld nodes old rest,
      (replay fuel l.length l.length isTop knownOld).run nodes = .ok ((old, leavesRoot l), rest) →
      old = leavesRoot (l.take l.length) := by
    intro l fuel isTop knownOld nodes old rest hrun
    rw [List.take_length]
    exact replay_self hrun
  induction leaves using leaves_induction with
  | nil =>
    intro fuel m _ _ _ _ _ _ hpos hm
    simp at hm
    omega
  | one a =>
    intro fuel m isTop knownOld nodes old rest _ hpos hm _ hrun
    obtain rfl : m = [a].length := by simp at hm ⊢; omega
    exact hself [a] fuel isTop knownOld nodes old rest hrun
  | split l h ihl ihr =>
    intro fuel m isTop knownOld nodes old rest hfuel hpos hm hmix hrun
    obtain rfl | hlt := hm.eq_or_lt
    · exact hself l fuel isTop knownOld nodes old rest hrun
    obtain ⟨hk, hkn⟩ := splitPoint_bounds h
    have htake : (l.take (splitPoint l.length)).length = splitPoint l.length := by
      rw [List.length_take]
      omega
    have hdrop : (l.drop (splitPoint l.length)).length = l.length - splitPoint l.length := List.length_drop
    obtain ⟨fuel, rfl⟩ : ∃ f, fuel = f + 1 := ⟨fuel - 1, by omega⟩
    rw [MerkleTree.hashTree_split fuel h] at hmix
    -- the pair joined last is the pair at the root of the tree
    have hpair : ∀ q ∈ joinedFrom (fuel + 1) m l.length isTop knownOld nodes, leavesRoot l = nodeHash q.1 q.2 →
        (leavesRoot (l.take (splitPoint l.length)), leavesRoot (l.drop (splitPoint l.length))) = q := by
      intro q hq heq
      have htop := hmix _ (.head _) q hq
      rw [MerkleTree.digest_hashTree, MerkleTree.digest_hashTree, rootOf_fuel _ _ (by omega),
        rootOf_fuel _ _ (by omega)] at htop
      exact htop ((leavesRoot_split h).symm.trans heq)
    by_cases hside : m ≤ splitPoint l.length
    · obtain ⟨newLeft, right, hleft, hnew, hjoined⟩ := replay_left_inv hlt.ne hside hrun
      have hroots := hpair (newLeft, right) (hjoined ▸ .head _) hnew
      have hnewLeft : leavesRoot (l.take (splitPoint l.length)) = newLeft := congrArg Prod.fst hroots
      rw [← hnewLeft] at hleft
      have hpart := ihl fuel m isTop knownOld nodes old (right :: rest) (by omega) hpos (by omega) (by
        rw [htake]
        exact fun p hp q hq => hmix p (HashTree.joins_left hp) q (hjoined ▸ .tail _ hq)) (by rwa [htake])
      rwa [List.take_take, min_eq_left hside] at hpart
    · obtain ⟨left, oldRight, newRight, hright, hold, hnew, hjoined⟩ := replay_right_inv hlt.ne hside hrun
      have hroots := hpair (left, newRight) (hjoined ▸ .head _) hnew
      have hleft : leavesRoot (l.take (splitPoint l.length)) = left := congrArg Prod.fst hroots
      have hnewRight : leavesRoot (l.drop (splitPoint l.length)) = newRight := congrArg Prod.snd hroots
      rw [← hnewRight] at hright
      have hpart := ihr fuel (m - splitPoint l.length) false knownOld nodes oldRight (left :: rest) (by omega)
        (by omega) (by omega) (by
          rw [hdrop]
          exact fun p hp q hq => hmix p (HashTree.joins_right hp) q (hjoined ▸ .tail _ hq)) (by rwa [hdrop])
      rw [hold, leavesRoot_take h (not_le.1 hside) hm, hleft, hpart]

theorem verify_eq_ok {p : ConsistencyProof} {oldRoot newRoot : Hash32} {m n : Nat} :
    p.verify oldRoot newRoot m n = .ok () ↔ p.oldSize = m ∧ p.newSize = n ∧ m ≤ n ∧
      ((m = 0 ∨ m = n) ∧ p.nodes = [] ∧ (oldRoot = if m = 0 then emptyRoot else newRoot) ∨
        ¬ (m = 0 ∨ m = n) ∧ (replay n m n true oldRoot).run p.nodes = .ok ((oldRoot, newRoot), [])) := by
  unfold verify
  dsimp only
  rw [Except.guard_eq_ok, Except.guard_eq_ok, not_or, not_not, not_not, and_assoc]
  refine and_congr_right fun hold => and_congr_right fun hnew => ?_
  rw [hold, hnew]
  refine and_congr not_lt ?_
  by_cases hdegenerate : m = 0 ∨ m = n
  · rw [if_pos hdegenerate, Except.guard_eq_ok]
    by_cases hroot : oldRoot = if m = 0 then emptyRoot else newRoot
    · simp [hdegenerate, ← hroot, pure, Except.pure]
    · simp [hdegenerate, hroot, throw, throwThe, MonadExceptOf.throw, bind, Except.bind]
  · rw [if_neg hdegenerate, Except.bind_eq_ok]
    simp only [Except.guard_eq_ok, Except.check_eq_ok]
    constructor
    · rintro ⟨⟨⟨old, new⟩, spare⟩, hrun, hspare, hold, hnew⟩
      obtain rfl : spare = [] := by simpa using hspare
      obtain rfl : old = oldRoot := not_not.1 hold
      obtain rfl : new = newRoot := not_not.1 hnew
      exact .inr ⟨hdegenerate, hrun⟩
    · rintro (⟨h, -⟩ | ⟨-, hrun⟩)
      · exact absurd h hdegenerate
      · exact ⟨_, hrun, by simp, by simp, by simp⟩

variable {t : MerkleTree} {m : Nat}

theorem verify_proveConsistency (h : m ≤ t.leaves.length) : ∃ p, t.proveConsistency m = .ok p ∧
    p.verify (leavesRoot (t.leaves.take m)) t.root m t.leaves.length = .ok () := by
  refine ⟨_, if_neg (not_lt.2 h), verify_eq_ok.2 ⟨rfl, rfl, h, ?_⟩⟩
  by_cases hdegenerate : m = 0 ∨ m = t.leaves.length
  · refine .inl ⟨hdegenerate, if_neg (by tauto), ?_⟩
    split
    next hzero =>
        subst hzero
        rfl
    next hzero =>
        rw [hdegenerate.resolve_left hzero, List.take_length]
        rfl
  · obtain ⟨hzero, hall⟩ := not_or.1 hdegenerate
    refine .inr ⟨hdegenerate, ?_⟩
    dsimp only
    rw [if_pos ⟨hzero, hall⟩]
    exact (replay_reads t.leaves _ m true _ le_rfl (Nat.pos_of_ne_zero hzero) h fun _ => rfl).run

theorem root_of_verify {p : ConsistencyProof} {r : Hash32} {inputs : List Bytes} (hfree : CollisionFree inputs)
    (htree : t.joined.map nodeInput ⊆ inputs) (hproof : (p.joined r).map nodeInput ⊆ inputs)
    (h : p.verify r t.root m t.leaves.length = .ok ()) : r = leavesRoot (t.leaves.take m) := by
  obtain ⟨rfl, hnew, hle, hcases⟩ := verify_eq_ok.1 h
  have hmix := hfree.unmixed htree hproof
  obtain ⟨hdegenerate, -, hold⟩ | ⟨hdegenerate, hrun⟩ := hcases
  · split at hold
    next hzero =>
        rw [hold, hzero]
        rfl
    next hzero =>
        rw [hold, hdegenerate.resolve_left hzero, List.take_length]
        rfl
  · have hzero := (not_or.1 hdegenerate).1
    rw [joined, hnew] at hmix
    exact replay_sound t.leaves _ p.oldSize true r p.nodes r [] le_rfl (Nat.pos_of_ne_zero hzero) hle hmix hrun

end ConsistencyProof

end AfroLink
