import AfroLink.State.Lemmas.SparseMerkleTree

/-!
# State proofs as climbs

A proof climbs from what its path ends in to a root, along the bits of the key.
-/

namespace AfroLink.Smt

/-! ## What is hashed -/

variable [Crypto]

/-- The value of an entry, and the key's path with the hash of the value. -/
def leafInputs (e : Hash32 × Bytes) : List Bytes :=
  [absorbDomain .stateLeaf ++ e.2, pairInput .stateLeaf (e.1, hash .stateLeaf e.2)]

omit [Crypto] in
def nodeInput (pair : Hash32 × Hash32) : Bytes := pairInput .stateNode pair

def Link.inputs (link : Link) : List Bytes :=
  link.entries.flatMap leafInputs ++ (link.joins Link.tipHash nodeHash).map nodeInput

/-- What was hashed does not collide, and does not hash to the constant of empty subtrees. -/
structure HashesApart (inputs : List Bytes) : Prop where
  free : CollisionFree inputs
  nonempty : ∀ x ∈ inputs, Crypto.blake3 x ≠ EMPTY

instance (inputs : List Bytes) : Decidable (HashesApart inputs) :=
  decidable_of_iff (CollisionFree inputs ∧ ∀ x ∈ inputs, Crypto.blake3 x ≠ EMPTY)
    ⟨fun ⟨hfree, hnonempty⟩ => ⟨hfree, hnonempty⟩, fun h => ⟨h.free, h.nonempty⟩⟩

namespace HashesApart

variable {inputs : List Bytes} {e e' : Hash32 × Bytes} {p q : Hash32 × Hash32}

theorem mono {inputs' : List Bytes} (h : HashesApart inputs') (hsub : inputs ⊆ inputs') : HashesApart inputs :=
  ⟨h.free.mono hsub, fun x hx => h.nonempty x (hsub hx)⟩

theorem nodeHash_inj (h : HashesApart inputs) (hp : nodeInput p ∈ inputs) (hq : nodeInput q ∈ inputs)
    (heq : nodeHash p.1 p.2 = nodeHash q.1 q.2) : p = q := h.free.pair_inj hp hq heq

theorem nodeHash_ne_empty (h : HashesApart inputs) (hp : nodeInput p ∈ inputs) : nodeHash p.1 p.2 ≠ EMPTY := by
  rw [nodeHash, hashParts_pair]
  exact h.nonempty _ hp

theorem leafHash_ne_empty (h : HashesApart inputs) (he : leafInputs e ⊆ inputs) : leafHash e.1 e.2 ≠ EMPTY := by
  rw [leafHash, hashParts_pair]
  exact h.nonempty _ (he (.tail _ (.head _)))

theorem leafHash_ne_nodeHash (h : HashesApart inputs) (he : leafInputs e ⊆ inputs) (hq : nodeInput q ∈ inputs) :
    leafHash e.1 e.2 ≠ nodeHash q.1 q.2 := by
  intro heq
  rw [leafHash, nodeHash, hashParts_pair, hashParts_pair] at heq
  cases (h.free.hash_inj (he (.tail _ (.head _))) hq heq).1

theorem leafHash_inj (h : HashesApart inputs) (he : leafInputs e ⊆ inputs) (he' : leafInputs e' ⊆ inputs)
    (heq : leafHash e.1 e.2 = leafHash e'.1 e'.2) : e = e' := by
  have hpair := h.free.pair_inj (he (.tail _ (.head _))) (he' (.tail _ (.head _))) heq
  obtain ⟨hkey, hvalue⟩ := Prod.mk.inj hpair
  exact Prod.ext hkey (h.free.hash_inj (he (.head _)) (he' (.head _)) hvalue).2

end HashesApart

/-! ## Climbing -/

omit [Crypto] in
/-- The siblings of a proof from a depth on, each with the side the key is on. -/
def path (kh : Hash32) (depth : Nat) (siblings : List Hash32) : List (Bool × Hash32) :=
  (siblings.zipIdx depth).map fun step => (kh.bit step.2, step.1)

omit [Crypto] in
theorem path_cons (kh : Hash32) (depth : Nat) (sibling : Hash32) (siblings : List Hash32) :
    path kh depth (sibling :: siblings) = (kh.bit depth, sibling) :: path kh (depth + 1) siblings := rfl

def ProofLeaf.hash (kh : Hash32) : ProofLeaf → Hash32
  | present value => leafHash kh value
  | absent => EMPTY
  | absentOccupied otherKeyHash otherValue => leafHash otherKeyHash otherValue

omit [Crypto] in
def ProofLeaf.claim : ProofLeaf → Option Bytes
  | present value => some value
  | absent => none
  | absentOccupied _ _ => none

omit [Crypto] in
def ProofLeaf.entry (kh : Hash32) : ProofLeaf → Option (Hash32 × Bytes)
  | present value => some (kh, value)
  | absent => none
  | absentOccupied otherKeyHash otherValue => some (otherKeyHash, otherValue)

theorem ProofLeaf.hash_eq (kh : Hash32) (leaf : ProofLeaf) : leaf.hash kh = Link.tipHash (leaf.entry kh) := by
  cases leaf <;> rfl

theorem foldr_eq_climb (kh : Hash32) (siblings : List Hash32) (depth : Nat) (acc : Hash32) :
    (siblings.zipIdx depth).foldr
      (fun step acc => if kh.bit step.2 then nodeHash step.1 acc else nodeHash acc step.1) acc =
        climb nodeHash (path kh depth siblings) acc := by
  induction siblings generalizing depth with
  | nil => rfl
  | cons sibling siblings ih =>
    rw [List.zipIdx_cons, List.foldr_cons, ih, path_cons, climb]
    cases hbit : kh.bit depth <;> simp [beside]

namespace Proof

def Fits (p : Proof) (kh : Hash32) : Prop :=
  ∀ other value, p.leaf = .absentOccupied other value → other ≠ kh ∧ sharesPrefix kh other p.siblings.length = true

theorem start_eq_some {p : Proof} {kh acc : Hash32} : p.start kh = some acc ↔ p.Fits kh ∧ p.leaf.hash kh = acc := by
  unfold start Fits
  cases hleaf : p.leaf with
  | present value => simp [ProofLeaf.hash]
  | absent => simp [ProofLeaf.hash]
  | absentOccupied other value =>
    by_cases heq : other = kh
    · simp [heq]
    · by_cases hshares : sharesPrefix kh other p.siblings.length = true <;> simp [heq, hshares, ProofLeaf.hash]

theorem computeRoot_eq_some {p : Proof} {key : Bytes} {root : Hash32} :
    p.computeRoot key = some root ↔ p.siblings.length ≤ MAX_PROOF_DEPTH ∧ p.Fits (keyHash key) ∧
      climb nodeHash (path (keyHash key) 0 p.siblings) (p.leaf.hash (keyHash key)) = root := by
  unfold computeRoot
  split
  next hlong => simp [not_le.2 hlong]
  next hlong =>
    have hshort := not_lt.1 hlong
    constructor
    · intro h
      obtain ⟨acc, hacc, hroot⟩ := Option.bind_eq_some_iff.1 h
      obtain ⟨hfits, rfl⟩ := start_eq_some.1 hacc
      exact ⟨hshort, hfits, (foldr_eq_climb ..).symm.trans (Option.some.inj hroot)⟩
    · rintro ⟨-, hfits, hclimb⟩
      refine Option.bind_eq_some_iff.2 ⟨_, start_eq_some.2 ⟨hfits, rfl⟩, congrArg some ?_⟩
      exact (foldr_eq_climb ..).trans hclimb

theorem verify_eq_true {p : Proof} {root : Hash32} {key : Bytes} {expected : Option Bytes} :
    p.verify root key expected = true ↔ p.leaf.claim = expected ∧ p.computeRoot key = some root := by
  unfold verify
  cases p.leaf <;> cases expected <;> simp [ProofLeaf.claim]

end Proof

/-! ## Completeness -/

variable {kh : Hash32} {depth : Nat} {link : Link}

omit [Crypto] in
theorem sharesPrefix_eq_true {a b : Hash32} {bits : Nat} :
    sharesPrefix a b bits = true ↔ ∀ i < bits, a.bit i = b.bit i := by
  simp [sharesPrefix]

/-- The proof of a key climbs back to the root, says what looking the key up says, and ends in another key's leaf only
if that key shares the path. -/
theorem proveAt_spec (h : link.Canonical depth) (hunder : link.Under depth kh) (hdepth : depth ≤ MAX_PROOF_DEPTH) :
    climb nodeHash (path kh depth (proveAt kh link depth).siblings) ((proveAt kh link depth).leaf.hash kh) = link.hash ∧
      (proveAt kh link depth).leaf.claim = getAt kh link depth ∧
      depth + (proveAt kh link depth).siblings.length ≤ MAX_PROOF_DEPTH ∧
      ∀ other value, (proveAt kh link depth).leaf = .absentOccupied other value →
        other ≠ kh ∧ ∀ i < depth + (proveAt kh link depth).siblings.length, kh.bit i = other.bit i := by
  induction link generalizing depth with
  | tip a =>
    cases a with
    | none => exact ⟨rfl, rfl, hdepth, fun _ _ h => by cases h⟩
    | some e =>
      obtain ⟨k, value⟩ := e
      by_cases heq : k = kh
      · subst heq
        simp only [proveAt, if_true]
        exact ⟨rfl, (if_pos rfl).symm, hdepth, fun _ _ h => by cases h⟩
      · simp only [proveAt, if_neg heq]
        refine ⟨rfl, (if_neg heq).symm, hdepth, ?_⟩
        rintro other value ⟨⟩
        exact ⟨heq, fun i hi => (hunder (k, value) (List.mem_singleton.2 rfl) i hi).symm⟩
  | fork l r ihl ihr =>
    obtain ⟨hlt, -, hsides⟩ := canonical_internal.1 h
    have hside := hunder.descend h
    cases hbit : kh.bit depth with
    | false =>
      rw [hbit] at hside
      obtain ⟨hclimb, hclaim, hlen, hother⟩ := ihl hsides.left hside hlt
      simp only [proveAt, getAt, if_neg (not_le.2 hlt), hbit, Bool.false_eq_true, if_false, List.length_cons]
      refine ⟨?_, hclaim, by omega, fun other value hleaf => ?_⟩
      · rw [path_cons, hbit, climb]
        exact congrArg (nodeHash · _) hclimb
      · rw [← Nat.add_assoc, Nat.add_right_comm]
        exact hother other value hleaf
    | true =>
      rw [hbit] at hside
      obtain ⟨hclimb, hclaim, hlen, hother⟩ := ihr hsides.right hside hlt
      simp only [proveAt, getAt, if_neg (not_le.2 hlt), hbit, if_true, List.length_cons]
      refine ⟨?_, hclaim, by omega, fun other value hleaf => ?_⟩
      · rw [path_cons, hbit, climb]
        exact congrArg (nodeHash _) hclimb
      · rw [← Nat.add_assoc, Nat.add_right_comm]
        exact hother other value hleaf

variable {t : SparseMerkleTree} {a : Option (Hash32 × Bytes)} {q : Hash32 × Hash32} {link : Link}

theorem verify_prove (h : t.WellFormed) (key : Bytes) : (t.prove key).verify t.root key (t.get key) = true := by
  obtain ⟨hclimb, hclaim, hlen, hother⟩ :=
    proveAt_spec h.canonical (HashTree.Under.zero : t.link.Under 0 (keyHash key)) (Nat.zero_le _)
  rw [Nat.zero_add] at hlen hother
  refine Proof.verify_eq_true.2 ⟨hclaim, Proof.computeRoot_eq_some.2 ⟨hlen, fun other value hleaf => ?_, hclimb⟩⟩
  obtain ⟨hne, hshared⟩ := hother other value hleaf
  exact ⟨hne, sharesPrefix_eq_true.2 hshared⟩

/-! ## Soundness -/

omit [Crypto] in
theorem getAt_of_descend {siblings : List Hash32} {sub : Link} (hdepth : depth + siblings.length ≤ MAX_PROOF_DEPTH)
    (h : link.descend ((path kh depth siblings).map Prod.fst) = some sub) :
    getAt kh link depth = getAt kh sub (depth + siblings.length) := by
  induction siblings generalizing depth link with
  | nil =>
    cases link <;> cases h <;> rfl
  | cons sibling siblings ih =>
    rw [List.length_cons] at hdepth
    cases link with
    | tip a => cases h
    | fork l r =>
      rw [path_cons, List.map_cons, HashTree.descend] at h
      have hnext := ih (by omega) h
      rw [List.length_cons, ← Nat.add_assoc, Nat.add_right_comm, ← hnext]
      cases hbit : kh.bit depth <;> simp [getAt, hbit, show ¬ depth ≥ MAX_PROOF_DEPTH by omega]

def Proof.inputs (p : Proof) (key : Bytes) : List Bytes :=
  (p.leaf.entry (keyHash key)).toList.flatMap leafInputs ++
    (climbed nodeHash (path (keyHash key) 0 p.siblings) (p.leaf.hash (keyHash key))).map nodeInput

theorem tipHash_inj {inputs : List Bytes} {b : Option (Hash32 × Bytes)} (h : HashesApart inputs)
    (ha : a.toList.flatMap leafInputs ⊆ inputs) (hb : b.toList.flatMap leafInputs ⊆ inputs)
    (heq : Link.tipHash a = Link.tipHash b) : a = b := by
  have hsub : ∀ {e : Hash32 × Bytes}, (some e).toList.flatMap leafInputs ⊆ inputs → leafInputs e ⊆ inputs := by
    intro e he
    simpa using he
  cases a with
  | none => cases b with
    | none => rfl
    | some e => exact absurd heq.symm (h.leafHash_ne_empty (hsub hb))
  | some e => cases b with
    | none => exact absurd heq (h.leafHash_ne_empty (hsub ha))
    | some e' => exact congrArg some (h.leafHash_inj (hsub ha) (hsub hb) heq)

theorem tipHash_ne_nodeHash {inputs : List Bytes}
    (h : HashesApart inputs) (ha : a.toList.flatMap leafInputs ⊆ inputs) (hq : nodeInput q ∈ inputs) :
    Link.tipHash a ≠ nodeHash q.1 q.2 := by
  cases a with
  | none => exact (h.nodeHash_ne_empty hq).symm
  | some e => exact h.leafHash_ne_nodeHash (by simpa using ha) hq

theorem inputs_of_tip (ha : a ∈ link.tips) : a.toList.flatMap leafInputs ⊆ link.inputs := by
  cases a with
  | none => simp
  | some e =>
    intro x hx
    rw [Option.toList_some, List.flatMap_singleton] at hx
    exact List.mem_append_left _ (List.mem_flatMap.2 ⟨e, HashTree.mem_tips.1 ha, hx⟩)

theorem inputs_of_join (hq : q ∈ link.joins Link.tipHash nodeHash) :
    nodeInput q ∈ link.inputs := List.mem_append_right _ (List.mem_map_of_mem hq)

theorem claim_of_verify {p : Proof} {key : Bytes} {expected : Option Bytes}
    (hapart : HashesApart (t.link.inputs ++ p.inputs key)) (h : p.verify t.root key expected = true) :
    expected = t.get key := by
  obtain ⟨hclaim, hroot⟩ := Proof.verify_eq_true.1 h
  obtain ⟨hlen, hfits, hclimb⟩ := Proof.computeRoot_eq_some.1 hroot
  have htree : t.link.inputs ⊆ t.link.inputs ++ p.inputs key := List.subset_append_left _ _
  have hproof : p.inputs key ⊆ t.link.inputs ++ p.inputs key := List.subset_append_right _ _
  have hpair : ∀ q ∈ climbed nodeHash (path (keyHash key) 0 p.siblings) (p.leaf.hash (keyHash key)),
      nodeInput q ∈ t.link.inputs ++ p.inputs key := fun q hq =>
    hproof (List.mem_append_right _ (List.mem_map_of_mem hq))
  have hleaf : (p.leaf.entry (keyHash key)).toList.flatMap leafInputs ⊆ t.link.inputs ++ p.inputs key :=
    fun x hx => hproof (List.mem_append_left _ hx)
  obtain ⟨sub, hsub, hdigest⟩ := HashTree.descend_of_climb
    (fun a ha q hq => hapart.nodeHash_inj (htree (inputs_of_join ha)) (hpair q hq)) hclimb
    (fun a ha q hq => tipHash_ne_nodeHash hapart (fun x hx => htree (inputs_of_tip ha hx)) (hpair q hq))
  have hget := getAt_of_descend (by omega) hsub
  rw [ProofLeaf.hash_eq] at hdigest
  rw [SparseMerkleTree.get, hget, ← hclaim]
  cases sub with
  | tip a =>
    have ha := inputs_of_tip (HashTree.tips_of_descend hsub (.head _))
    cases tipHash_inj hapart (fun x hx => htree (ha hx)) hleaf hdigest
    cases hentry : p.leaf with
    | present value => simp [ProofLeaf.claim, ProofLeaf.entry, getAt]
    | absent => simp [ProofLeaf.claim, ProofLeaf.entry, getAt]
    | absentOccupied other value =>
      have hne := (hfits other value hentry).1
      simp [ProofLeaf.claim, ProofLeaf.entry, getAt, hne]
  | fork l r =>
    have hjoin : (l.digest Link.tipHash nodeHash, r.digest Link.tipHash nodeHash) ∈
        t.link.joins Link.tipHash nodeHash := HashTree.joins_of_descend hsub (.head _)
    have hne := tipHash_ne_nodeHash hapart hleaf (htree (inputs_of_join hjoin))
    exact absurd hdigest.symm hne

/-! ## Roots -/

theorem Link.eq_of_hash_eq {link' : Link} (hapart : HashesApart (link.inputs ++ link'.inputs))
    (h : link.hash = link'.hash) : link = link' := by
  have hsub : link.inputs ⊆ link.inputs ++ link'.inputs := List.subset_append_left _ _
  have hsub' : link'.inputs ⊆ link.inputs ++ link'.inputs := List.subset_append_right _ _
  refine HashTree.eq_of_digest_eq ?_ ?_ ?_ ?_ h
  · intro p hp q hq
    exact hapart.nodeHash_inj (hsub (inputs_of_join hp)) (hsub' (inputs_of_join hq))
  · intro a ha b hb
    exact tipHash_inj hapart (fun x hx => hsub (inputs_of_tip ha hx)) (fun x hx => hsub' (inputs_of_tip hb hx))
  · intro a ha q hq
    exact tipHash_ne_nodeHash hapart (fun x hx => hsub (inputs_of_tip ha hx)) (hsub' (inputs_of_join hq))
  · intro b hb p hp
    exact tipHash_ne_nodeHash hapart (fun x hx => hsub' (inputs_of_tip hb hx)) (hsub (inputs_of_join hp))

end AfroLink.Smt
