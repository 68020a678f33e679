import AfroLink.Base.Trace
import AfroLink.Base.TreeMap
import AfroLink.State.Nodes
import AfroLink.State.Lemmas.StateProofs

/-!
# What a node store holds

Nodes are written from the leaves up, so whatever a store holds it holds with everything beneath it, after every single
write.
-/

namespace AfroLink

/-! ## Decoding what was encoded -/

theorem leBytes_mod (w n : Nat) : leBytes w (n % 256 ^ w) = leBytes w n := by
  induction w generalizing n with
  | zero => rfl
  | succ w ih =>
    have hhead : Fin.ofNat (2 ^ 8) (n % 256 ^ (w + 1)) = Fin.ofNat (2 ^ 8) n := by
      refine Fin.ext ?_
      show n % 256 ^ (w + 1) % 256 = n % 256
      exact Nat.mod_mod_of_dvd n (Dvd.intro_left _ (Nat.pow_succ ..).symm)
    have htail : n % 256 ^ (w + 1) / 256 = n / 256 % 256 ^ w := by
      rw [Nat.pow_succ, Nat.mul_comm, Nat.mod_mul_right_div_self]
    rw [leBytes, leBytes, hhead, htail, ih]

theorem encodeLen_reads (n : Nat) : Reads (decode : Decoder U32) (encodeLen n) (Fin.ofNat (2 ^ 32) n) := by
  have h := reads (Fin.ofNat (2 ^ 32) n) rfl
  have hbytes : encode (Fin.ofNat (2 ^ 32) n) = encodeLen n := leBytes_mod 4 n
  rwa [hbytes] at h

theorem decodeExact_append {α : Type} [Decode α] {x rest : Bytes} {v : α} (h : Reads (decode : Decoder α) x v)
    (hrest : rest ≠ []) : (decodeExact (x ++ rest) : Except CodecError α) = .error (.trailingBytes rest.length) := by
  unfold decodeExact
  rw [h rest]
  cases rest with
  | nil => exact absurd rfl hrest
  | cons b rest => rfl

theorem decodeExact_refuses {α : Type} [Decode α] {x : Bytes} {e : CodecError}
    (h : Refuses (decode : Decoder α) x e) (rest : Bytes) :
    (decodeExact (x ++ rest) : Except CodecError α) = .error e := by
  unfold decodeExact
  rw [h rest]

namespace Smt

namespace Node

instance : RoundTrip Node where
  readable
    | leaf _ value => readable value
    | internal _ _ => true
  reads
    | leaf keyHash value, h => (tag_reads 0).cons ((reads keyHash rfl).bind (reads value h).last)
    | internal left right, _ => (tag_reads 1).cons ((reads left rfl).bind (reads right rfl).last)

theorem readable_leaf {keyHash : Hash32} {value : Bytes} (h : value.length ≤ MAX_FIELD_LEN) :
    readable (leaf keyHash value) = true :=
  Bool.and_eq_true_iff.2 ⟨decide_eq_true h, List.all_eq_true.2 fun _ _ => rfl⟩

/-- A value that is too long is not read back: its length is refused, or cut off and bytes are left over. -/
theorem decodeExact_long (keyHash : Hash32) {value : Bytes} (h : MAX_FIELD_LEN < value.length) :
    ∃ e, (decodeExact (encode (leaf keyHash value)) : Except CodecError Node) = .error e := by
  have hbytes : ∀ n, encode (leaf keyHash value) = ([0] ++ (encode keyHash ++ (encodeLen value.length ++
      (value.take n).flatMap encode))) ++ (value.drop n).flatMap encode := by
    intro n
    simp only [List.append_assoc, ← List.flatMap_append, List.take_append_drop]
    rfl
  have hlen := encodeLen_reads value.length
  generalize Fin.ofNat (2 ^ 32) value.length = m at hlen
  by_cases hlong : m.val > MAX_FIELD_LEN
  · have hvalue : Refuses (decode : Decoder Bytes) (encodeLen value.length ++ []) (.lengthTooLarge m.val) :=
      (Refuses.after hlen (.guard hlong)).bind
    have hnode : Refuses (decode : Decoder Node) ([0] ++ (encode keyHash ++ (encodeLen value.length ++ [])))
        (.lengthTooLarge m.val) := Refuses.after (tag_reads 0) (Refuses.after (reads keyHash rfl) hvalue.bind)
    exact ⟨_, (congrArg _ (hbytes 0)).trans (decodeExact_refuses hnode _)⟩
  · have hlt : m.val < value.length := (not_lt.1 hlong).trans_lt h
    have hmany : Reads (readMany (decode : Decoder U8) m.val) ((value.take m.val).flatMap encode)
        (value.take m.val) := by
      have hread : Reads (readMany (decode : Decoder U8) (value.take m.val).length) _ _ :=
        Reads.many fun a _ => reads a rfl
      rwa [List.length_take_of_le hlt.le] at hread
    have htake : Reads takeLen (encodeLen value.length ++ []) m.val := hlen.bind (.guard hlong (.pure m.val))
    rw [List.append_nil] at htake
    have hvalue : Reads (decode : Decoder Bytes) (encodeLen value.length ++ (value.take m.val).flatMap encode)
        (value.take m.val) := htake.bind hmany
    have hnode : Reads (decode : Decoder Node)
        ([0] ++ (encode keyHash ++ (encodeLen value.length ++ (value.take m.val).flatMap encode)))
        (leaf keyHash (value.take m.val)) := (tag_reads 0).cons ((reads keyHash rfl).bind hvalue.last)
    have hleft : (value.drop m.val).flatMap encode ≠ [] := by
      obtain ⟨b, rest, hdrop⟩ := List.exists_cons_of_ne_nil (List.drop_eq_nil_iff.not.2 (not_le.2 hlt))
      rw [hdrop]
      exact fun h => by cases h
    exact ⟨_, (congrArg _ (hbytes m.val)).trans (decodeExact_append hnode hleft)⟩

end Node

/-! ## Nodes of a tree -/

section

variable [Crypto]

/-- The nodes of a tree by their hashes, what is beneath a node before it. -/
def Link.nodes : Link → List (Hash32 × Node)
  | .absent => []
  | .leaf key value => [((Link.leaf key value).hash, .leaf key value)]
  | .internal left right =>
    left.nodes ++ (right.nodes ++ [((Link.internal left right).hash, .internal left.hash right.hash)])

omit [Crypto] in
def Link.parts : Link → List Link
  | .absent => []
  | .leaf key value => [.leaf key value]
  | .internal left right => .internal left right :: (left.parts ++ right.parts)

omit [Crypto] in
def Part (trees : List SparseMerkleTree) (link : Link) : Prop := ∃ t ∈ trees, link.parts ⊆ t.link.parts

variable {l r part : Link} {S : Type} {t : SparseMerkleTree}

theorem Link.inputs_left : l.inputs ⊆ (Link.internal l r).inputs := by
  intro b hb
  rcases List.mem_append.1 hb with hb | hb
  · obtain ⟨e, he, hb⟩ := List.mem_flatMap.1 hb
    exact List.mem_append_left _ (List.mem_flatMap.2 ⟨e, List.mem_append_left _ he, hb⟩)
  · exact List.mem_append_right _ (List.map_subset _ HashTree.joins_left hb)

theorem Link.inputs_right : r.inputs ⊆ (Link.internal l r).inputs := by
  intro b hb
  rcases List.mem_append.1 hb with hb | hb
  · obtain ⟨e, he, hb⟩ := List.mem_flatMap.1 hb
    exact List.mem_append_left _ (List.mem_flatMap.2 ⟨e, List.mem_append_right _ he, hb⟩)
  · exact List.mem_append_right _ (List.map_subset _ HashTree.joins_right hb)

theorem Link.inputs_of_parts {link : Link} (h : part ∈ link.parts) : part.inputs ⊆ link.inputs := by
  induction link with
  | tip a =>
    cases a with
    | none => cases h
    | some e =>
      obtain rfl := List.mem_singleton.1 h
      exact List.Subset.refl _
  | fork l r ihl ihr =>
    rcases List.mem_cons.1 h with rfl | h
    · exact List.Subset.refl _
    · rcases List.mem_append.1 h with h | h
      · exact List.Subset.trans (ihl h) Link.inputs_left
      · exact List.Subset.trans (ihr h) Link.inputs_right

/-- A store holds a tree if it has each of its nodes under the hash of the node. -/
def Holds (s : MemoryNodes) (link : Link) : Prop := ∀ w ∈ link.nodes, s.nodes[w.1]? = some (encode w.2)

/-- Whatever is held is a subtree of one of the trees, and is held as a whole. -/
def Closed (trees : List SparseMerkleTree) (s : MemoryNodes) : Prop :=
  ∀ h, hasNode s h = true → ∃ link, link ≠ .absent ∧ Part trees link ∧ link.hash = h ∧ Holds s link

/-- A node is put into a store that holds everything beneath it but not the node. -/
def Put (trees : List SparseMerkleTree) (s : MemoryNodes) (ws : List (Hash32 × Node)) (s' : MemoryNodes) : Prop :=
  ∃ w, ws = [w] ∧ s' = putNode s w.1 w.2 ∧ hasNode s w.1 = false ∧
    ∃ link below, link ≠ .absent ∧ Part trees link ∧ link.hash = w.1 ∧ link.nodes = below ++ [w] ∧
      ∀ x ∈ below, s.nodes[x.1]? = some (encode x.2)

/-! ## One write -/

variable {trees : List SparseMerkleTree} {s s' : MemoryNodes} {ws : List (Hash32 × Node)} {h : Hash32} {link : Link}

omit [Crypto] in
theorem getElem?_put (s : MemoryNodes) (h k : Hash32) (node : Node) :
    (putNode s h node).nodes[k]? = if h = k then some (encode node) else s.nodes[k]? := by
  show (s.nodes.insert h (encode node))[k]? = _
  rw [Std.TreeMap.getElem?_insert]
  simp only [Std.compare_eq_iff_eq]

omit [Crypto] in
theorem hasNode_iff : hasNode s h = true ↔ ∃ b, s.nodes[h]? = some b := by
  show s.nodes.contains h = true ↔ _
  rw [← Std.TreeMap.isSome_getElem?_eq_contains, Option.isSome_iff_exists]

omit [Crypto] in
theorem hasNode_put {node : Node} {k : Hash32} : hasNode (putNode s h node) k = true ↔ h = k ∨ hasNode s k = true := by
  rw [hasNode_iff, hasNode_iff, getElem?_put]
  split
  next heq => simp [heq]
  next hne => simp [hne]

theorem Put.held (hput : Put trees s ws s') {k : Hash32} {b : Bytes} (hk : s.nodes[k]? = some b) :
    s'.nodes[k]? = some b := by
  obtain ⟨w, -, rfl, hnew, -⟩ := hput
  rw [getElem?_put, if_neg]
  · exact hk
  · rintro rfl
    rw [hasNode_iff.2 ⟨b, hk⟩] at hnew
    cases hnew

theorem Holds.put (hheld : Holds s link) (hput : Put trees s ws s') : Holds s' link := fun w hw =>
  hput.held (hheld w hw)

theorem Closed.put (hclosed : Closed trees s) (hput : Put trees s ws s') : Closed trees s' := by
  have hkeep := @Put.held _ _ _ _ _ hput
  obtain ⟨w, -, rfl, -, link, below, hnode, hpart, hhash, hnodes, hbelow⟩ := id hput
  intro k hk
  obtain rfl | hk := hasNode_put.1 hk
  · refine ⟨link, hnode, hpart, hhash, fun x hx => ?_⟩
    rw [hnodes, List.mem_append, List.mem_singleton] at hx
    obtain hx | rfl := hx
    · exact hkeep (hbelow x hx)
    · rw [getElem?_put, if_pos rfl]
  · obtain ⟨link, hnode, hpart, hhash, hheld⟩ := hclosed k hk
    exact ⟨link, hnode, hpart, hhash, hheld.put hput⟩

/-! ## A commit -/

theorem hasNode_of_trace (htrace : Trace (Put trees) s ws s') :
    (∀ k, hasNode s' k = true ↔ hasNode s k = true ∨ k ∈ ws.map Prod.fst) ∧
      (∀ k ∈ ws.map Prod.fst, hasNode s k = false) ∧ (ws.map Prod.fst).Nodup := by
  induction htrace with
  | nil s => simp
  | @cons s t u as bs hput hrest ih =>
    obtain ⟨w, rfl, rfl, hnew, -⟩ := hput
    obtain ⟨hheld, hfresh, hnodup⟩ := ih
    simp only [hasNode_put] at hheld
    have hfresh' : ∀ k ∈ bs.map Prod.fst, w.1 ≠ k ∧ hasNode s k = false := by
      intro k hk
      have := hfresh k hk
      rw [← Bool.not_eq_true, hasNode_put, not_or, Bool.not_eq_true] at this
      exact this
    refine ⟨fun k => ?_, fun k hk => ?_, ?_⟩
    · rw [hheld k]
      simp only [List.map_cons, List.cons_append, List.nil_append, List.mem_cons, eq_comm]
      tauto
    · rcases List.mem_cons.1 hk with rfl | hk
      · exact hnew
      · exact (hfresh' k hk).2
    · exact List.nodup_cons.2 ⟨fun hmem => (hfresh' _ hmem).1 rfl, hnodup⟩

theorem Holds.trace (hheld : Holds s link) (htrace : Trace (Put trees) s ws s') : Holds s' link :=
  htrace.preserves (I := fun s => Holds s link) (fun _ _ _ hheld hput => hheld.put hput) hheld

theorem Closed.trace (hclosed : Closed trees s) (htrace : Trace (Put trees) s ws s') : Closed trees s' :=
  htrace.preserves (fun _ _ _ hclosed hput => hclosed.put hput) hclosed

omit [Crypto] in
theorem Link.self_mem_parts (hnode : link ≠ .absent) : link ∈ link.parts := by
  cases link with
  | tip a => cases a <;> simp [parts] at hnode ⊢
  | fork l r => exact .head _

omit [Crypto] in
theorem Link.length_tips_of_parts (hpart : part ∈ link.parts) : part.tips.length ≤ link.tips.length := by
  induction link with
  | tip a =>
    cases a with
    | none => cases hpart
    | some e =>
      obtain rfl := List.mem_singleton.1 hpart
      exact le_rfl
  | fork l r ihl ihr =>
    rcases List.mem_cons.1 hpart with rfl | hpart
    · exact le_rfl
    · rw [HashTree.tips, List.length_append]
      rcases List.mem_append.1 hpart with hpart | hpart
      · exact (ihl hpart).trans (Nat.le_add_right _ _)
      · exact (ihr hpart).trans (Nat.le_add_left _ _)

omit [Crypto] in
theorem Link.tips_pos (link : Link) : 0 < link.tips.length := by
  induction link with
  | tip a => simp [HashTree.tips]
  | fork l r ihl ihr =>
    rw [HashTree.tips, List.length_append]
    omega

theorem Link.exists_part {w : Hash32 × Node} (hw : w ∈ link.nodes) : ∃ part ∈ link.parts, part.hash = w.1 := by
  induction link with
  | tip a =>
    cases a with
    | none => cases hw
    | some e =>
      obtain rfl := List.mem_singleton.1 hw
      exact ⟨_, .head _, rfl⟩
  | fork l r ihl ihr =>
    simp only [nodes, List.mem_append, List.mem_singleton] at hw
    obtain hw | hw | rfl := hw
    · obtain ⟨part, hpart, hhash⟩ := ihl hw
      exact ⟨part, .tail _ (List.mem_append_left _ hpart), hhash⟩
    · obtain ⟨part, hpart, hhash⟩ := ihr hw
      exact ⟨part, .tail _ (List.mem_append_right _ hpart), hhash⟩
    · exact ⟨_, .head _, rfl⟩

def treeInputs (trees : List SparseMerkleTree) : List Bytes := trees.flatMap fun t => t.link.inputs

omit [Crypto] in
theorem Part.of_mem (hlink : Part trees link) (hmem : part ∈ link.parts) : ∃ t ∈ trees, part ∈ t.link.parts := by
  obtain ⟨t, ht, hsub⟩ := hlink
  exact ⟨t, ht, hsub hmem⟩

theorem Part.eq_of_hash_eq {a b : Link} (hapart : HashesApart (treeInputs trees))
    (ha : ∃ t ∈ trees, a ∈ t.link.parts) (hb : ∃ t ∈ trees, b ∈ t.link.parts) (heq : a.hash = b.hash) : a = b := by
  obtain ⟨t, ht, ha⟩ := ha
  obtain ⟨t', ht', hb⟩ := hb
  refine Link.eq_of_hash_eq (hapart.mono ?_) heq
  intro x hx
  rcases List.mem_append.1 hx with hx | hx
  · exact List.mem_flatMap.2 ⟨t, ht, Link.inputs_of_parts ha hx⟩
  · exact List.mem_flatMap.2 ⟨t', ht', Link.inputs_of_parts hb hx⟩

/-- The outcome of writing a subtree into a store that is closed. -/
structure Written (trees : List SparseMerkleTree) (link : Link) (j : Journal) (stats : WriteStats)
    (out : Hash32 × Journal × WriteStats) (new : List (Hash32 × Node)) : Prop where
  hash : out.1 = link.hash
  writes : out.2.1.writes = j.writes ++ new
  trace : Trace (Put trees) j.store new out.2.1.store
  sub : new ⊆ link.nodes
  holds : Holds out.2.1.store link
  written : out.2.2.written = stats.written + new.length

theorem Closed.holds (hclosed : Closed trees s) (hapart : HashesApart (treeInputs trees)) (hnode : link ≠ .absent)
    (hpart : Part trees link) (hheld : hasNode s link.hash = true) : Holds s link := by
  obtain ⟨link', hnode', hpart', hhash, hholds⟩ := hclosed _ hheld
  have heq := Part.eq_of_hash_eq hapart (hpart'.of_mem (Link.self_mem_parts hnode'))
    (hpart.of_mem (Link.self_mem_parts hnode)) hhash
  exact heq ▸ hholds

theorem writeNode_held [NodeSink S] (sink : S) (stats : WriteStats) (hnode : link ≠ .absent)
    (hheld : hasNode sink link.hash = true) :
    writeNode link (sink, stats) = (link.hash, sink, { stats with visited := stats.visited + 1 }) := by
  cases link with
  | tip a =>
    cases a with
    | none => exact absurd rfl hnode
    | some e => exact if_pos hheld
  | fork l r => exact if_pos hheld

theorem writeNode_leaf [NodeSink S] (sink : S) (stats : WriteStats) {key : Hash32} {value : Bytes}
    (hnew : ¬ hasNode sink (Link.leaf key value).hash = true) :
    writeNode (Link.leaf key value) (sink, stats) = ((Link.leaf key value).hash,
      putNode sink (Link.leaf key value).hash (.leaf key value),
      { stats with visited := stats.visited + 1, written := stats.written + 1 }) := if_neg hnew

theorem writeNode_internal [NodeSink S] (sink : S) (stats : WriteStats)
    (hnew : ¬ hasNode sink (Link.internal l r).hash = true) : writeNode (Link.internal l r) (sink, stats) =
      let outl := writeNode l (sink, { stats with visited := stats.visited + 1 })
      let outr := writeNode r outl.2
      ((Link.internal l r).hash, putNode outr.2.1 (Link.internal l r).hash (.internal outl.1 outr.1),
        { outr.2.2 with written := outr.2.2.written + 1 }) := if_neg hnew

/-- Writing keeps the store closed at every write, and what was to be written is there at the end. -/
theorem writeNode_spec (hapart : HashesApart (treeInputs trees)) (hpart : Part trees link) (j : Journal)
    (stats : WriteStats) (hclosed : Closed trees j.store) :
    ∃ new, Written trees link j stats (writeNode link (j, stats)) new := by
  have hskip : ∀ {link : Link} (j : Journal) (stats : WriteStats), link ≠ .absent → Part trees link →
      Closed trees j.store → hasNode j.store link.hash = true →
      ∃ new, Written trees link j stats (writeNode link (j, stats)) new := by
    intro link j stats hnode hpart hclosed hheld
    rw [writeNode_held j stats hnode hheld]
    exact ⟨[], rfl, (List.append_nil _).symm, .nil _, List.nil_subset _, hclosed.holds hapart hnode hpart hheld, rfl⟩
  induction link generalizing j stats with
  | tip a =>
    cases a with
    | none =>
      exact ⟨[], rfl, (List.append_nil _).symm, .nil _, List.nil_subset _, fun _ hw => (List.not_mem_nil hw).elim,
        rfl⟩
    | some e =>
      obtain ⟨key, value⟩ := e
      have hnode : Link.leaf key value ≠ .absent := by simp
      by_cases hheld : hasNode j.store (Link.leaf key value).hash = true
      · exact hskip j stats hnode hpart hclosed hheld
      · have hput : Put trees j.store [((Link.leaf key value).hash, .leaf key value)]
            (putNode j.store (Link.leaf key value).hash (.leaf key value)) :=
          ⟨_, rfl, rfl, Bool.not_eq_true _ ▸ hheld, _, [], hnode, hpart, rfl, rfl, by simp⟩
        rw [writeNode_leaf j stats hheld]
        refine ⟨_, rfl, rfl, .single hput, List.Subset.refl _, fun w hw => ?_, rfl⟩
        obtain rfl := List.mem_singleton.1 hw
        exact (getElem?_put ..).trans (if_pos rfl)
  | fork l r ihl ihr =>
    have hnode : Link.internal l r ≠ .absent := by simp
    by_cases hheld : hasNode j.store (Link.internal l r).hash = true
    · exact hskip j stats hnode hpart hclosed hheld
    · obtain ⟨t, ht, hsub⟩ := id hpart
      have hleft : Part trees l := ⟨t, ht, fun x hx => hsub (.tail _ (List.mem_append_left _ hx))⟩
      have hright : Part trees r := ⟨t, ht, fun x hx => hsub (.tail _ (List.mem_append_right _ hx))⟩
      rw [writeNode_internal j stats hheld]
      dsimp only
      obtain ⟨newl, hl⟩ := ihl hleft j { stats with visited := stats.visited + 1 } hclosed
      generalize writeNode l (j, { stats with visited := stats.visited + 1 }) = outl at hl ⊢
      obtain ⟨newr, hr⟩ := ihr hright outl.2.1 outl.2.2 (hclosed.trace hl.trace)
      generalize writeNode r outl.2 = outr at hr ⊢
      have htrace := hl.trace.trans hr.trace
      -- none of the nodes beneath has the hash of the node
      have hfresh : hasNode outr.2.1.store (Link.internal l r).hash = false := by
        rw [← Bool.not_eq_true, (hasNode_of_trace htrace).1, not_or]
        refine ⟨hheld, fun hmem => ?_⟩
        obtain ⟨w, hw, hhash⟩ := List.mem_map.1 hmem
        have hbelow : w ∈ Link.nodes l ∨ w ∈ Link.nodes r := (List.mem_append.1 hw).imp (hl.sub ·) (hr.sub ·)
        obtain ⟨part, hmem, hsmall, heq⟩ : ∃ part ∈ (Link.internal l r).parts,
            part.tips.length < (Link.internal l r).tips.length ∧ part.hash = w.1 := by
          have hlpos := Link.tips_pos l
          have hrpos := Link.tips_pos r
          rw [HashTree.tips, List.length_append]
          rcases hbelow with hw | hw
          · obtain ⟨part, hmem, heq⟩ := Link.exists_part hw
            have hle := Link.length_tips_of_parts hmem
            exact ⟨part, .tail _ (List.mem_append_left _ hmem), by omega, heq⟩
          · obtain ⟨part, hmem, heq⟩ := Link.exists_part hw
            have hle := Link.length_tips_of_parts hmem
            exact ⟨part, .tail _ (List.mem_append_right _ hmem), by omega, heq⟩
        have hsame := Part.eq_of_hash_eq hapart (hpart.of_mem hmem) (hpart.of_mem (Link.self_mem_parts hnode))
          (heq.trans hhash)
        exact absurd hsmall (hsame ▸ lt_irrefl _)
      have hput : Put trees outr.2.1.store [((Link.internal l r).hash, .internal (Link.hash l) (Link.hash r))]
          (putNode outr.2.1.store (Link.internal l r).hash (.internal (Link.hash l) (Link.hash r))) := by
        refine ⟨_, rfl, rfl, hfresh, _, Link.nodes l ++ Link.nodes r, hnode, hpart, rfl,
          (List.append_assoc ..).symm, ?_⟩
        intro x hx
        rcases List.mem_append.1 hx with hx | hx
        · exact (hl.holds.trace hr.trace) x hx
        · exact hr.holds x hx
      rw [hl.hash, hr.hash]
      refine ⟨newl ++ (newr ++ [((Link.internal l r).hash, .internal (Link.hash l) (Link.hash r))]), rfl, ?_,
        hl.trace.trans (hr.trace.trans (.single hput)), ?_, fun w hw => ?_, ?_⟩
      · show outr.2.1.writes ++ [_] = _
        rw [hr.writes, hl.writes, List.append_assoc, List.append_assoc]
      · intro w hw
        simp only [Link.nodes, List.mem_append] at hw ⊢
        exact hw.imp (hl.sub ·) (Or.imp_left (hr.sub ·))
      · simp only [Link.nodes, List.mem_append, List.mem_singleton] at hw
        rcases hw with hw | hw | rfl
        · exact hput.held (hl.holds.trace hr.trace w hw)
        · exact hput.held (hr.holds w hw)
        · exact (getElem?_put ..).trans (if_pos rfl)
      · show outr.2.2.written + 1 = _
        rw [hr.written, hl.written]
        simp only [List.length_append, List.length_singleton]
        omega

theorem writeNode_store (link : Link) (j : Journal) (stats : WriteStats) :
    writeNode link (j.store, stats) = ((writeNode link (j, stats)).1, (writeNode link (j, stats)).2.1.store,
      (writeNode link (j, stats)).2.2) := by
  induction link generalizing j stats with
  | tip a =>
    cases a with
    | none => rfl
    | some e =>
      obtain ⟨key, value⟩ := e
      by_cases hheld : hasNode j.store (Link.leaf key value).hash = true
      · rw [writeNode_held j.store stats (by simp) hheld, writeNode_held j stats (by simp) hheld]
      · rw [writeNode_leaf j.store stats hheld, writeNode_leaf j stats hheld]
        rfl
  | fork l r ihl ihr =>
    by_cases hheld : hasNode j.store (Link.internal l r).hash = true
    · rw [writeNode_held j.store stats (by simp) hheld, writeNode_held j stats (by simp) hheld]
    · rw [writeNode_internal j.store stats hheld, writeNode_internal j stats hheld]
      dsimp only
      rw [ihl, ihr]
      rfl

theorem putAll_of_trace (htrace : Trace (Put trees) s ws s') : s' = s.putAll ws := by
  induction htrace with
  | nil s => rfl
  | cons hput _ ih =>
    obtain ⟨w, rfl, rfl, -, -⟩ := hput
    exact ih

theorem commitTree_spec (hapart : HashesApart (treeInputs trees)) (ht : t ∈ trees) (hclosed : Closed trees s) :
    (commitTree t s).2.1 = s.putAll (commitWrites t s) ∧ Trace (Put trees) s (commitWrites t s) (commitTree t s).2.1 ∧
      commitWrites t s ⊆ t.link.nodes ∧ Holds (commitTree t s).2.1 t.link ∧ (commitTree t s).1 = t.root ∧
      (commitTree t s).2.2.written = (commitWrites t s).length := by
  obtain ⟨new, hnew⟩ := writeNode_spec hapart ⟨t, ht, List.Subset.refl _⟩ (Journal.mk s []) ⟨0, 0⟩ hclosed
  have hwrites : commitWrites t s = new := hnew.writes
  have hstore : commitTree t s = _ := writeNode_store t.link (Journal.mk s []) ⟨0, 0⟩
  have htrace := hnew.trace
  rw [hstore, hwrites]
  exact ⟨putAll_of_trace htrace, htrace, hnew.sub, hnew.holds, hnew.hash, hnew.written.trans (Nat.zero_add _)⟩

theorem commitAll_concat (done : List SparseMerkleTree) (t : SparseMerkleTree) :
    commitAll (done ++ [t]) = (commitTree t (commitAll done)).2.1 := List.foldl_concat ..

theorem commitAll_spec (hapart : HashesApart (treeInputs trees)) {done : List SparseMerkleTree} (hdone : done ⊆ trees) :
    Closed trees (commitAll done) ∧ ∀ t ∈ done, Holds (commitAll done) t.link := by
  induction done using List.reverseRecOn with
  | nil =>
    refine ⟨fun h hheld => ?_, fun t ht => (List.not_mem_nil ht).elim⟩
    obtain ⟨b, hb⟩ := hasNode_iff.1 hheld
    simp [commitAll, MemoryNodes.new] at hb
  | append_singleton done t ih =>
    obtain ⟨hdone, ht⟩ := List.append_subset.1 hdone
    obtain ⟨hclosed, hholds⟩ := ih hdone
    obtain ⟨-, htrace, -, hlast, -⟩ := commitTree_spec hapart (ht (.head _)) hclosed
    rw [commitAll_concat]
    refine ⟨hclosed.trace htrace, fun t' ht' => ?_⟩
    rcases List.mem_append.1 ht' with ht' | ht'
    · exact (hholds t' ht').trace htrace
    · obtain rfl := List.mem_singleton.1 ht'
      exact hlast

/-! ## Reading back -/

omit [Crypto] in
def Link.height : Link → Nat
  | .tip _ => 0
  | .internal left right => max left.height right.height + 1

omit [Crypto] in
theorem Link.height_le {depth : Nat} (hcanon : link.Canonical depth) (hdepth : depth ≤ MAX_PROOF_DEPTH) :
    depth + link.height ≤ MAX_PROOF_DEPTH := by
  induction link generalizing depth with
  | tip a => exact hdepth
  | fork l r ihl ihr =>
    obtain ⟨hlt, -, hsides⟩ := canonical_internal.1 hcanon
    have hl := ihl hsides.left hlt
    have hr := ihr hsides.right hlt
    rw [Link.height]
    omega

theorem Link.hash_ne_empty (hapart : HashesApart link.inputs) (hnode : link ≠ .absent) : link.hash ≠ EMPTY := by
  cases link with
  | tip a =>
    cases a with
    | none => exact absurd rfl hnode
    | some e => exact hapart.leafHash_ne_empty fun x hx => inputs_of_tip (.head _) (by simpa using hx)
  | fork l r =>
    have hjoin : (l.digest tipHash nodeHash, r.digest tipHash nodeHash) ∈
        (HashTree.fork l r).joins tipHash nodeHash := .head _
    have hne := hapart.nodeHash_ne_empty (inputs_of_join hjoin)
    exact hne

omit [Crypto] in
theorem getNode_eq {node : Node} (hheld : s.nodes[h]? = some (encode node)) :
    s.getNode h = (decodeExact (encode node) : Except CodecError Node).toOption := by
  rw [MemoryNodes.getNode, hheld]
  rfl

section

variable {fuel : Nat} {out : Std.TreeMap Hash32 Bytes} (hne : h ≠ EMPTY)

omit [Crypto] in
include hne in
theorem collect_leaf {keyHash : Hash32} {value : Bytes} (hnode : s.getNode h = some (.leaf keyHash value)) :
    collect s (fuel + 1) h out = some (out.insert keyHash value) := by
  rw [collect, if_neg hne, hnode]
  rfl

omit [Crypto] in
include hne in
theorem collect_internal {left right : Hash32} (hnode : s.getNode h = some (.internal left right)) :
    collect s (fuel + 1) h out = (collect s fuel left out).bind (collect s fuel right) := by
  rw [collect, if_neg hne, hnode]
  rfl

omit [Crypto] in
include hne in
theorem collect_none (hnode : s.getNode h = none) : collect s fuel h out = none := by
  cases fuel with
  | zero => rfl
  | succ fuel =>
    rw [collect, if_neg hne, hnode]
    rfl

end

theorem Holds.getNode_internal (hholds : Holds s (.internal l r)) :
    s.getNode (Link.internal l r).hash = some (.internal l.hash r.hash) := by
  have hnode := getNode_eq (hholds ((Link.internal l r).hash, .internal l.hash r.hash) (by simp [Link.nodes]))
  rwa [decodeExact_encode rfl] at hnode

theorem Holds.left (hholds : Holds s (.internal l r)) : Holds s l := fun w hw =>
  hholds w (List.mem_append_left _ hw)

theorem Holds.right (hholds : Holds s (.internal l r)) : Holds s r := fun w hw =>
  hholds w (List.mem_append_right _ (List.mem_append_left _ hw))

theorem collect_spec (hapart : HashesApart link.inputs) (hholds : Holds s link)
    (hshort : ∀ e ∈ link.entries, e.2.length ≤ MAX_FIELD_LEN) (fuel : Nat) (hfuel : link.height < fuel)
    (out : Std.TreeMap Hash32 Bytes) :
    collect s fuel link.hash out = some (link.entries.foldl (fun m e => m.insert e.1 e.2) out) := by
  induction link generalizing fuel out with
  | tip a =>
    obtain ⟨fuel, rfl⟩ := Nat.exists_eq_succ_of_ne_zero (Nat.ne_of_gt hfuel)
    cases a with
    | none => exact if_pos rfl
    | some e =>
      obtain ⟨key, value⟩ := e
      have hnode := getNode_eq (hholds _ (.head _))
      rw [decodeExact_encode (Node.readable_leaf (hshort _ (.head _)))] at hnode
      exact collect_leaf (Link.hash_ne_empty hapart (by simp)) hnode
  | fork l r ihl ihr =>
    obtain ⟨fuel, rfl⟩ := Nat.exists_eq_succ_of_ne_zero (Nat.ne_of_gt (Nat.zero_lt_of_lt hfuel))
    have hheight : max (Link.height l) (Link.height r) + 1 < fuel + 1 := hfuel
    have hleft := ihl (hapart.mono Link.inputs_left) hholds.left
      (fun e he => hshort e (List.mem_append_left _ he)) fuel (by omega) out
    rw [collect_internal (Link.hash_ne_empty hapart (by simp)) hholds.getNode_internal, hleft, Option.bind_some,
      ihr (hapart.mono Link.inputs_right) hholds.right (fun e he => hshort e (List.mem_append_right _ he)) fuel
        (by omega), ← List.foldl_append]
    rfl

theorem collect_long (hapart : HashesApart link.inputs) (hholds : Holds s link) {e : Hash32 × Bytes}
    (he : e ∈ link.entries) (hlong : MAX_FIELD_LEN < e.2.length) (fuel : Nat) (out : Std.TreeMap Hash32 Bytes) :
    collect s fuel link.hash out = none := by
  induction link generalizing fuel out with
  | tip a =>
    cases a with
    | none => cases he
    | some e =>
      obtain rfl := List.mem_singleton.1 he
      obtain ⟨err, herr⟩ := Node.decodeExact_long _ hlong
      have hnode := getNode_eq (hholds _ (.head _))
      rw [herr] at hnode
      exact collect_none (Link.hash_ne_empty hapart (by simp)) hnode
  | fork l r ihl ihr =>
    cases fuel with
    | zero => rfl
    | succ fuel =>
      rw [collect_internal (Link.hash_ne_empty hapart (by simp)) hholds.getNode_internal]
      rcases List.mem_append.1 he with he | he
      · rw [ihl (hapart.mono Link.inputs_left) hholds.left he]
        rfl
      · cases collect s fuel (Link.hash l) out with
        | none => rfl
        | some out => exact ihr (hapart.mono Link.inputs_right) hholds.right he fuel out

omit [Crypto] in
theorem foldl_insertHashed (ht : t.WellFormed) {l : List (Hash32 × Bytes)} (hl : (l.map Prod.fst).Nodup) :
    (l.foldl (fun t e => t.insertHashed e.1 e.2) t).WellFormed ∧
      ∀ e, e ∈ (l.foldl (fun t e => t.insertHashed e.1 e.2) t).entries ↔
        e ∈ l ∨ e.1 ∉ l.map Prod.fst ∧ e ∈ t.entries := by
  induction l generalizing t with
  | nil => exact ⟨ht, by simp⟩
  | cons a l ih =>
    obtain ⟨ha, hl⟩ := List.nodup_cons.1 hl
    obtain ⟨hwf, hrw⟩ := ht.insertHashed a.1 a.2
    obtain ⟨hwf', hmem⟩ := ih hwf hl
    refine ⟨hwf', fun e => ?_⟩
    rw [List.foldl_cons, hmem, hrw, List.map_cons, List.mem_cons, List.mem_cons, not_or, Prod.ext_iff,
      Option.some.injEq]
    by_cases hkey : e.1 = a.1
    · have hnot : e.1 ∉ l.map Prod.fst := hkey ▸ ha
      have hmem : e ∉ l := fun he => hnot (List.mem_map_of_mem he)
      simp only [eq_comm]
      tauto
    · tauto

omit [Crypto] in
theorem fromEntries_spec (m : Std.TreeMap Hash32 Bytes) :
    (SparseMerkleTree.fromEntries m).WellFormed ∧
      ∀ e, e ∈ (SparseMerkleTree.fromEntries m).entries ↔ e ∈ m.toList := by
  obtain ⟨hwf, hmem⟩ := foldl_insertHashed SparseMerkleTree.wellFormed_new m.nodup_keys_toList
  exact ⟨hwf, fun e => (hmem e).trans (by simp [SparseMerkleTree.entries_eq, SparseMerkleTree.new, HashTree.entries])⟩

theorem loadTree_spec (ht : t.WellFormed) (hapart : HashesApart t.link.inputs)
    (hholds : Holds s t.link) (hshort : ∀ e ∈ t.entries, e.2.length ≤ MAX_FIELD_LEN) {fuel : Nat}
    (hfuel : MAX_PROOF_DEPTH < fuel) : loadTree fuel t.root s = some t := by
  have hheight := Link.height_le ht.canonical (Nat.zero_le _)
  rw [SparseMerkleTree.entries_eq] at hshort
  have hcollect : collect s fuel t.root ∅ = _ := collect_spec hapart hholds hshort fuel (by omega) ∅
  obtain ⟨hwf, hmem⟩ := fromEntries_spec (t.link.entries.foldl (fun m e => m.insert e.1 e.2) ∅)
  have hsame := hwf.ext ht fun e => by
    rw [hmem, Std.TreeMap.mem_toList_foldl_insert ht.canonical.nodup, SparseMerkleTree.entries_eq,
      Std.TreeMap.toList_empty]
    simp
  rw [loadTree, hcollect]
  exact congrArg some hsame

end

end Smt

end AfroLink
