import AfroLink.State.SparseMerkleTree
import AfroLink.Crypto.Lemmas.Hashing

/-!
# Shape and contents of the state tree

Inserting and removing keep the tree canonical and change the entry of the one key.
-/

namespace AfroLink

/-! ## Bits -/

theorem testBit_of_shift {b i : Nat} : (b >>> i % 2 == 1) = b.testBit i := by
  rw [Nat.testBit_eq_decide_div_mod_eq, Nat.shiftRight_eq_div_pow]
  rfl

theorem Hash32.eq_of_bit {h h' : Hash32} (heq : ∀ i < 256, h.bit i = h'.bit i) : h = h' := by
  refine asBytes_injective (List.ext_getElem (by rw [length_asBytes, length_asBytes]) ?_)
  intro j hj hj'
  rw [length_asBytes] at hj
  refine Fin.ext (Nat.eq_of_testBit_eq fun i => ?_)
  by_cases hi : i < 8
  · have hbit := heq (8 * j + (7 - i)) (by omega)
    have hdiv : (8 * j + (7 - i)) / 8 = j := by omega
    have hmod : 7 - (8 * j + (7 - i)) % 8 = i := by omega
    simp only [Hash32.bit, hdiv, hmod, testBit_of_shift] at hbit
    simpa [length_asBytes, hj] using hbit
  · have hlt : ∀ b : U8, b.val.testBit i = false := fun b =>
      Nat.testBit_lt_two_pow (b.isLt.trans_le (Nat.pow_le_pow_right (by omega) (by omega)))
    rw [hlt, hlt]

namespace Smt

namespace Link

abbrev Canonical (depth : Nat) (link : Link) : Prop := HashTree.Canonical Hash32.bit MAX_PROOF_DEPTH depth link
abbrev Under (depth : Nat) (key : Hash32) (link : Link) : Prop := HashTree.Under Hash32.bit depth key link

end Link

/-! ## Inserting -/

variable {key : Hash32} {value : Bytes} {depth : Nat} {link left right : Link}

/-- The keys of two subtrees are on the side of their bit. -/
structure Sides (depth : Nat) (left right : Link) : Prop where
  clear : ∀ e ∈ left.entries, e.1.bit depth = false
  set : ∀ e ∈ right.entries, e.1.bit depth = true
  left : left.Canonical (depth + 1)
  right : right.Canonical (depth + 1)

theorem canonical_internal :
    (Link.internal left right).Canonical depth ↔
      depth < MAX_PROOF_DEPTH ∧ 2 ≤ (left.entries ++ right.entries).length ∧ Sides depth left right :=
  ⟨fun ⟨hdepth, hmany, hclear, hset, hl, hr⟩ => ⟨hdepth, hmany, hclear, hset, hl, hr⟩,
    fun ⟨hdepth, hmany, hclear, hset, hl, hr⟩ => ⟨hdepth, hmany, hclear, hset, hl, hr⟩⟩

theorem splitFrom_spec (fuel : Nat) {a b : Hash32} (va vb : Bytes) (hne : a ≠ b) (hfuel : fuel + depth = MAX_PROOF_DEPTH)
    (hshared : ∀ i < depth, a.bit i = b.bit i) :
    (splitFrom fuel (.leaf a va) a (.leaf b vb) b depth).Canonical depth ∧
      (splitFrom fuel (.leaf a va) a (.leaf b vb) b depth).entries.Perm [(a, va), (b, vb)] := by
  induction fuel generalizing depth with
  | zero =>
    refine absurd (Hash32.eq_of_bit fun i hi => hshared i ?_) hne
    rw [Nat.zero_add] at hfuel
    rwa [hfuel]
  | succ fuel ih =>
    have hdepth : depth < MAX_PROOF_DEPTH := by omega
    by_cases hbit : a.bit depth = b.bit depth
    · have hnext : ∀ i < depth + 1, a.bit i = b.bit i := by
        intro i hi
        obtain hlt | rfl := Nat.lt_succ_iff_lt_or_eq.1 hi
        · exact hshared i hlt
        · exact hbit
      obtain ⟨hdeeper, hperm⟩ := ih (by omega) hnext
      have hbits : ∀ e ∈ (splitFrom fuel (.leaf a va) a (.leaf b vb) b (depth + 1)).entries,
          e.1.bit depth = a.bit depth := by
        intro e he
        have he := hperm.mem_iff.1 he
        simp only [List.mem_cons, List.not_mem_nil, or_false] at he
        obtain rfl | rfl := he
        · rfl
        · exact hbit.symm
      have hlen := hperm.length_eq
      cases ha : a.bit depth with
      | false =>
        simp only [splitFrom, ← hbit, ha, if_true, Bool.false_eq_true, if_false]
        rw [ha] at hbits
        refine ⟨canonical_internal.2 ⟨hdepth, ?_, hbits, fun _ h => (List.not_mem_nil h).elim, hdeeper, trivial⟩, ?_⟩
        · simp [HashTree.entries, hlen]
        · simpa [HashTree.entries] using hperm
      | true =>
        simp only [splitFrom, ← hbit, ha, if_true]
        rw [ha] at hbits
        refine ⟨canonical_internal.2 ⟨hdepth, ?_, fun _ h => (List.not_mem_nil h).elim, hbits, trivial, hdeeper⟩, ?_⟩
        · simp [HashTree.entries, hlen]
        · simpa [HashTree.entries] using hperm
    · cases ha : a.bit depth with
      | false =>
        have hb : b.bit depth = true := by simpa [ha] using hbit
        simp only [splitFrom, ha, hb, Bool.false_eq_true, if_false]
        refine ⟨canonical_internal.2 ⟨hdepth, ?_, ?_, ?_, trivial, trivial⟩, ?_⟩ <;>
          simp [HashTree.entries, ha, hb]
      | true =>
        have hb : b.bit depth = false := by simpa [ha] using hbit
        simp only [splitFrom, ha, hb, Bool.true_eq_false, if_false, if_true]
        refine ⟨canonical_internal.2 ⟨hdepth, ?_, ?_, ?_, trivial, trivial⟩, ?_⟩ <;>
          simp [HashTree.entries, ha, hb, List.Perm.swap]

/-- After the entry of one key was set or, without a value, taken out, the others are what they were. -/
def Rewritten (key : Hash32) (value : Option Bytes) (before after : List (Hash32 × Bytes)) : Prop :=
  ∀ e, e ∈ after ↔ e.1 = key ∧ value = some e.2 ∨ e.1 ≠ key ∧ e ∈ before

namespace Sides

variable {v : Option Bytes} {left' right' : Link}

theorem rewrite_left (h : Sides depth left right) (hbit : key.bit depth = false) (hcanon : left'.Canonical (depth + 1))
    (hrw : Rewritten key v left.entries left'.entries) :
    Sides depth left' right ∧ Rewritten key v (left.entries ++ right.entries) (left'.entries ++ right.entries) := by
  refine ⟨⟨fun e he => ?_, h.set, hcanon, h.right⟩, fun e => ?_⟩
  · obtain ⟨hkey, -⟩ | ⟨-, he⟩ := (hrw e).1 he
    · rw [hkey, hbit]
    · exact h.clear e he
  · have hne : e ∈ right.entries → e.1 ≠ key := fun he heq => by
      have hset := h.set e he
      rw [heq, hbit] at hset
      cases hset
    rw [List.mem_append, List.mem_append, hrw e]
    tauto

theorem rewrite_right (h : Sides depth left right) (hbit : key.bit depth = true)
    (hcanon : right'.Canonical (depth + 1)) (hrw : Rewritten key v right.entries right'.entries) :
    Sides depth left right' ∧ Rewritten key v (left.entries ++ right.entries) (left.entries ++ right'.entries) := by
  refine ⟨⟨h.clear, fun e he => ?_, h.left, hcanon⟩, fun e => ?_⟩
  · obtain ⟨hkey, -⟩ | ⟨-, he⟩ := (hrw e).1 he
    · rw [hkey, hbit]
    · exact h.set e he
  · have hne : e ∈ left.entries → e.1 ≠ key := fun he heq => by
      have hclear := h.clear e he
      rw [heq, hbit] at hclear
      cases hclear
    rw [List.mem_append, List.mem_append, hrw e]
    tauto

end Sides

theorem insertAt_spec (value : Bytes) (h : link.Canonical depth) (hunder : link.Under depth key) :
    (insertAt key value link depth).1.Canonical depth ∧
      Rewritten key (some value) link.entries (insertAt key value link depth).1.entries ∧
      (insertAt key value link depth).1.entries.length =
        link.entries.length + (insertAt key value link depth).2.toNat := by
  induction link generalizing depth with
  | tip a =>
    cases a with
    | none =>
      refine ⟨trivial, fun e => ?_, rfl⟩
      simp [insertAt, HashTree.entries, Prod.ext_iff, eq_comm]
    | some e =>
      obtain ⟨existing, existingValue⟩ := e
      by_cases heq : existing = key
      · subst heq
        simp only [insertAt, if_true]
        refine ⟨trivial, fun e => ?_, rfl⟩
        simp only [HashTree.entries, List.mem_singleton, Prod.ext_iff, Option.some.injEq, eq_comm]
        tauto
      · have hshared : ∀ i < depth, existing.bit i = key.bit i :=
          hunder (existing, existingValue) (List.mem_singleton.2 rfl)
        -- two keys that agree on all bits are one
        have hlt : ¬ depth ≥ MAX_PROOF_DEPTH := fun hge =>
          heq (Hash32.eq_of_bit fun i hi => hshared i (lt_of_lt_of_le hi hge))
        obtain ⟨hcanon, hperm⟩ :=
          splitFrom_spec (MAX_PROOF_DEPTH - depth) existingValue value heq (by omega) hshared
        simp only [insertAt, if_neg heq, if_neg hlt]
        refine ⟨hcanon, fun e => hperm.mem_iff.trans ?_, hperm.length_eq⟩
        simp only [HashTree.entries, List.mem_cons, List.not_mem_nil, or_false, Prod.ext_iff]
        by_cases hkey : e.1 = key
        · simp [hkey, Ne.symm heq, eq_comm]
        · simp [hkey]
  | fork l r ihl ihr =>
    obtain ⟨hlt, hmany, hsides⟩ := canonical_internal.1 h
    have hside := hunder.descend h
    rw [List.length_append] at hmany
    cases hbit : key.bit depth with
    | false =>
      rw [hbit] at hside
      obtain ⟨hcanon, hrw, hlen⟩ := ihl hsides.left hside
      obtain ⟨hsides', hrw'⟩ := hsides.rewrite_left hbit hcanon hrw
      simp only [insertAt, if_neg (not_le.2 hlt), hbit, Bool.false_eq_true, if_false]
      refine ⟨canonical_internal.2 ⟨hlt, ?_, hsides'⟩, hrw', ?_⟩
      · rw [List.length_append]
        omega
      · simp only [HashTree.entries, List.length_append]
        omega
    | true =>
      rw [hbit] at hside
      obtain ⟨hcanon, hrw, hlen⟩ := ihr hsides.right hside
      obtain ⟨hsides', hrw'⟩ := hsides.rewrite_right hbit hcanon hrw
      simp only [insertAt, if_neg (not_le.2 hlt), hbit, if_true]
      refine ⟨canonical_internal.2 ⟨hlt, ?_, hsides'⟩, hrw', ?_⟩
      · rw [List.length_append]
        omega
      · simp only [HashTree.entries, List.length_append]
        omega

/-! ## Removing -/

theorem collapse_spec (hdepth : depth < MAX_PROOF_DEPTH) (h : Sides depth left right) :
    (collapse left right).Canonical depth ∧ (collapse left right).entries = left.entries ++ right.entries := by
  by_cases hmany : 2 ≤ (left.entries ++ right.entries).length
  · have hinternal : collapse left right = .internal left right := by
      cases left with
      | tip a => cases right with
        | tip b => cases a <;> cases b <;> first | rfl | simp [HashTree.entries] at hmany
        | fork l r => cases a <;> rfl
      | fork l r => rfl
    rw [hinternal]
    exact ⟨canonical_internal.2 ⟨hdepth, hmany, h⟩, rfl⟩
  · -- with fewer entries neither side is a branch
    have htip : ∀ {x : Link}, x.Canonical (depth + 1) → x.entries.length < 2 → ∃ a, x = .tip a := by
      intro x hx hfew
      cases x with
      | tip a => exact ⟨a, rfl⟩
      | fork l r => exact absurd (canonical_internal.1 hx).2.1 (not_le.2 hfew)
    rw [List.length_append] at hmany
    obtain ⟨a, rfl⟩ := htip h.left (by omega)
    obtain ⟨b, rfl⟩ := htip h.right (by omega)
    cases a <;> cases b
    · exact ⟨trivial, rfl⟩
    · exact ⟨trivial, rfl⟩
    · exact ⟨trivial, rfl⟩
    · simp [HashTree.entries] at hmany

theorem removeAt_spec (key : Hash32) (h : link.Canonical depth) :
    (removeAt key link depth).1.Canonical depth ∧
      Rewritten key none link.entries (removeAt key link depth).1.entries ∧
      (removeAt key link depth).1.entries.length + (removeAt key link depth).2.toNat = link.entries.length := by
  induction link generalizing depth with
  | tip a =>
    cases a with
    | none =>
      refine ⟨trivial, fun e => ?_, rfl⟩
      simp [removeAt, HashTree.entries]
    | some e =>
      obtain ⟨existing, value⟩ := e
      by_cases heq : existing = key
      · subst heq
        simp only [removeAt, if_true]
        refine ⟨trivial, fun e => ?_, rfl⟩
        simp only [HashTree.entries, List.not_mem_nil, List.mem_singleton, Prod.ext_iff, reduceCtorEq, and_false]
        tauto
      · simp only [removeAt, if_neg heq]
        refine ⟨trivial, fun e => ?_, rfl⟩
        simp only [HashTree.entries, List.mem_singleton]
        constructor
        · rintro rfl
          exact .inr ⟨heq, rfl⟩
        · rintro (⟨-, h⟩ | ⟨-, h⟩)
          · cases h
          · exact h
  | fork l r ihl ihr =>
    obtain ⟨hlt, hmany, hsides⟩ := canonical_internal.1 h
    cases hbit : key.bit depth with
    | false =>
      obtain ⟨hcanon, hrw, hlen⟩ := ihl hsides.left
      obtain ⟨hsides', hrw'⟩ := hsides.rewrite_left hbit hcanon hrw
      obtain ⟨hcollapsed, hentries⟩ := collapse_spec hlt hsides'
      simp only [removeAt, if_neg (not_le.2 hlt), hbit, Bool.false_eq_true, if_false]
      refine ⟨hcollapsed, hentries ▸ hrw', ?_⟩
      simp only [hentries, HashTree.entries, List.length_append]
      omega
    | true =>
      obtain ⟨hcanon, hrw, hlen⟩ := ihr hsides.right
      obtain ⟨hsides', hrw'⟩ := hsides.rewrite_right hbit hcanon hrw
      obtain ⟨hcollapsed, hentries⟩ := collapse_spec hlt hsides'
      simp only [removeAt, if_neg (not_le.2 hlt), hbit, if_true]
      refine ⟨hcollapsed, hentries ▸ hrw', ?_⟩
      simp only [hentries, HashTree.entries, List.length_append]
      omega

/-! ## Looking up -/

theorem getAt_eq_some (h : link.Canonical depth) : getAt key link depth = some value ↔ (key, value) ∈ link.entries := by
  induction link generalizing depth with
  | tip a =>
    cases a with
    | none => simp [getAt, HashTree.entries]
    | some e =>
      obtain ⟨existing, existingValue⟩ := e
      simp only [getAt, HashTree.entries, List.mem_singleton, Prod.mk.injEq]
      by_cases heq : existing = key
      · simp [heq, eq_comm]
      · simp [heq, Ne.symm heq]
  | fork l r ihl ihr =>
    obtain ⟨hlt, -, hsides⟩ := canonical_internal.1 h
    rw [h.mem_side]
    cases hbit : key.bit depth with
    | false =>
      simp only [getAt, if_neg (not_le.2 hlt), hbit, Bool.false_eq_true, if_false]
      exact ihl hsides.left
    | true =>
      simp only [getAt, if_neg (not_le.2 hlt), hbit, if_true]
      exact ihr hsides.right

/-! ## Iterating -/

namespace Entries

theorem flatMap_push (link : Link) (stack : List Link) :
    (push link stack).flatMap HashTree.entries = link.entries ++ stack.flatMap HashTree.entries := by
  cases link with
  | tip a => cases a <;> rfl
  | fork l r => rfl

theorem sum_push (link : Link) (stack : List Link) :
    ((push link stack).map nodes).sum = nodes link + (stack.map nodes).sum := by
  cases link with
  | tip a => cases a <;> simp [push, nodes]
  | fork l r => rfl

theorem absent_notMem_push (link : Link) {stack : List Link} (h : Link.absent ∉ stack) :
    Link.absent ∉ push link stack := by
  cases link with
  | tip a => cases a <;> simpa [push] using h
  | fork l r => simpa [push] using h

theorem items_eq (fuel : Nat) (stack : List Link) (habsent : Link.absent ∉ stack)
    (h : (stack.map nodes).sum ≤ fuel) : items fuel stack = stack.flatMap HashTree.entries := by
  induction fuel generalizing stack with
  | zero =>
    cases stack with
    | nil => rfl
    | cons link stack =>
      cases link with
      | tip a => cases a <;> simp [nodes] at h habsent
      | fork l r => simp [nodes] at h
  | succ fuel ih =>
    cases stack with
    | nil => rfl
    | cons link stack =>
      have hrest : Link.absent ∉ stack := fun hmem => habsent (.tail _ hmem)
      rw [List.map_cons, List.sum_cons] at h
      cases link with
      | tip a =>
        cases a with
        | none => exact absurd (.head _) habsent
        | some e =>
          rw [nodes] at h
          rw [items, ih stack hrest (by omega)]
          rfl
      | fork l r =>
        rw [nodes] at h
        have hsum := (sum_push l (push r stack)).trans (congrArg _ (sum_push r stack))
        rw [items, ih _ (absent_notMem_push l (absent_notMem_push r hrest)) (by omega), flatMap_push, flatMap_push,
          ← List.append_assoc]
        rfl

end Entries

end Smt

/-! ## The tree -/

namespace SparseMerkleTree

open Smt

variable {t : SparseMerkleTree} {value : Bytes}

theorem entries_eq (t : SparseMerkleTree) : t.entries = t.link.entries := by
  rw [entries, Entries.items_eq _ _ (Entries.absent_notMem_push _ List.not_mem_nil), Entries.flatMap_push]
  · simp
  · simp [Entries.sum_push]

/-- The shape the hashing assumes, and the count beside it. -/
structure WellFormed (t : SparseMerkleTree) : Prop where
  canonical : t.link.Canonical 0
  len : t.len = t.entries.length

theorem wellFormed_new : WellFormed new := ⟨trivial, rfl⟩

theorem WellFormed.insertHashed (h : WellFormed t) (key : Hash32) (value : Bytes) :
    WellFormed (t.insertHashed key value) ∧ Rewritten key (some value) t.entries (t.insertHashed key value).entries := by
  obtain ⟨hcanon, hrw, hlen⟩ := insertAt_spec value h.canonical (HashTree.Under.zero : t.link.Under 0 key)
  rw [entries_eq, entries_eq]
  refine ⟨⟨hcanon, ?_⟩, hrw⟩
  rw [entries_eq]
  refine Eq.trans ?_ hlen.symm
  rw [← entries_eq, ← h.len]
  show (if _ then _ else _) = _
  cases (insertAt key value t.link 0).2 <;> rfl

theorem WellFormed.ext {t' : SparseMerkleTree} (h : WellFormed t) (h' : WellFormed t')
    (hentries : ∀ e, e ∈ t.entries ↔ e ∈ t'.entries) : t = t' := by
  have hlink : t.link = t'.link := h.canonical.ext h'.canonical (by simpa only [entries_eq] using hentries)
  have hlen : t.len = t'.len := by rw [h.len, h'.len, entries_eq, entries_eq, hlink]
  cases t
  cases t'
  cases hlink
  cases hlen
  rfl

variable [Crypto]

variable {key : Bytes} {ops : List Op} {e : Hash32 × Bytes}

theorem WellFormed.remove (h : WellFormed t) :
    WellFormed (t.remove key).1 ∧ Rewritten (keyHash key) none t.entries (t.remove key).1.entries := by
  obtain ⟨hcanon, hrw, hlen⟩ := removeAt_spec (keyHash key) h.canonical
  rw [entries_eq, entries_eq]
  refine ⟨⟨hcanon, ?_⟩, hrw⟩
  have hcount := h.len
  rw [entries_eq] at hcount ⊢
  show (if _ then _ else _) = List.length (HashTree.entries (removeAt (keyHash key) t.link 0).1)
  cases hremoved : (removeAt (keyHash key) t.link 0).2 <;> rw [hremoved] at hlen <;> simp at hlen ⊢ <;> omega

theorem WellFormed.get_eq_some (h : WellFormed t) : t.get key = some value ↔ (keyHash key, value) ∈ t.entries := by
  rw [entries_eq]
  exact getAt_eq_some h.canonical

/-! ## Sequences of operations -/

theorem apply_spec (h : WellFormed t) (op : Op) :
    WellFormed (t.apply op) ∧ Rewritten (keyHash op.key) op.value t.entries (t.apply op).entries := by
  cases op with
  | insert key value => exact h.insertHashed _ _
  | remove key => exact h.remove

theorem build_concat (ops : List Op) (op : Op) : build (ops ++ [op]) = (build ops).apply op := List.foldl_concat ..

omit [Crypto] in
theorem mapOf_concat (ops : List Op) (op : Op) : mapOf (ops ++ [op]) = Function.update (mapOf ops) op.key op.value :=
  List.foldl_concat ..

theorem wellFormed_build (ops : List Op) : WellFormed (build ops) := by
  induction ops using List.reverseRecOn with
  | nil => exact wellFormed_new
  | append_singleton ops op ih =>
    rw [build_concat]
    exact (apply_spec ih op).1

def KeysApart (keys : List Bytes) : Prop := ∀ k ∈ keys, ∀ k' ∈ keys, keyHash k = keyHash k' → k = k'

instance (keys : List Bytes) : Decidable (KeysApart keys) := inferInstanceAs (Decidable (∀ _ ∈ _, _))

theorem KeysApart.mono {keys keys' : List Bytes} (h : KeysApart keys') (hsub : keys ⊆ keys') : KeysApart keys :=
  fun k hk k' hk' => h k (hsub hk) k' (hsub hk')

theorem get_apply (h : WellFormed t) (op : Op) (key : Bytes) :
    (t.apply op).get key = if keyHash key = keyHash op.key then op.value else t.get key := by
  obtain ⟨hwf, hrw⟩ := apply_spec h op
  refine Option.ext fun v => ?_
  rw [hwf.get_eq_some, hrw]
  split
  next heq => simp [heq]
  next hne => simp [hne, h.get_eq_some]

theorem get_build (h : KeysApart (key :: ops.map Op.key)) : (build ops).get key = mapOf ops key := by
  induction ops using List.reverseRecOn with
  | nil => rfl
  | append_singleton ops op ih =>
    have hsub : key :: ops.map Op.key ⊆ key :: (ops ++ [op]).map Op.key := by simp
    have hop : op.key ∈ key :: (ops ++ [op]).map Op.key := by simp
    rw [build_concat, mapOf_concat, get_apply (wellFormed_build ops), ih (h.mono hsub)]
    by_cases hkey : key = op.key
    · simp [hkey]
    · rw [if_neg fun heq => hkey (h key (.head _) op.key hop heq), Function.update_of_ne hkey]

omit [Crypto] in
theorem mem_of_mapOf {value : Bytes} (h : mapOf ops key = some value) : key ∈ ops.map Op.key := by
  induction ops using List.reverseRecOn with
  | nil => cases h
  | append_singleton ops op ih =>
    rw [mapOf_concat] at h
    rw [List.map_append, List.mem_append]
    by_cases hkey : key = op.key
    · exact .inr (List.mem_singleton.2 hkey)
    · rw [Function.update_of_ne hkey] at h
      exact .inl (ih h)

theorem keyHash_of_mem_build (h : e ∈ (build ops).entries) : ∃ key ∈ ops.map Op.key, e.1 = keyHash key := by
  induction ops using List.reverseRecOn with
  | nil => cases h
  | append_singleton ops op ih =>
    rw [build_concat] at h
    obtain ⟨hkey, -⟩ | ⟨-, h⟩ := ((apply_spec (wellFormed_build ops) op).2 e).1 h
    · exact ⟨op.key, by simp, hkey⟩
    · obtain ⟨key, hmem, hkey⟩ := ih h
      exact ⟨key, by simp [List.mem_map.1 hmem], hkey⟩

theorem mem_entries_build (h : KeysApart (ops.map Op.key)) :
    e ∈ (build ops).entries ↔ ∃ key, mapOf ops key = some e.2 ∧ e.1 = keyHash key := by
  have hget : ∀ key ∈ ops.map Op.key, (build ops).get key = mapOf ops key := fun key hkey =>
    get_build (h.mono (List.cons_subset.2 ⟨hkey, List.Subset.refl _⟩))
  constructor
  · intro he
    obtain ⟨key, hmem, hkey⟩ := keyHash_of_mem_build he
    refine ⟨key, ?_, hkey⟩
    rw [← hget key hmem, (wellFormed_build ops).get_eq_some, ← hkey]
    exact he
  · rintro ⟨key, hval, hkey⟩
    rw [← hget key (mem_of_mapOf hval), (wellFormed_build ops).get_eq_some, ← hkey] at hval
    exact hval

theorem build_eq {ops' : List Op} (h : KeysApart (ops.map Op.key)) (h' : KeysApart (ops'.map Op.key))
    (hmap : mapOf ops = mapOf ops') : build ops = build ops' :=
  (wellFormed_build ops).ext (wellFormed_build ops') fun _ => by
    rw [mem_entries_build h, mem_entries_build h', hmap]

end SparseMerkleTree

end AfroLink
