import AfroLink.Crypto.Sample
import AfroLink.P2p.Lemmas.AddrBook

/-!
# What the address book knows and where it keeps it

A known address is in one bucket unless a full bucket of the tried table gave it up, and what one group can fill is
bounded whatever the hash.
-/

namespace AfroLink.AddrBook

structure KeepsTrack (b : AddrBook) : Prop where
  one_bucket : ∀ id e, b.get id = some e →
    ∃ k, (b.bucket (e.tried, k)).count id = 1 ∧ ∀ p, id ∈ b.bucket p → p = (e.tried, k)
  size_le : ∀ p, (b.bucket p).length ≤ BUCKET_SIZE
  known : ∀ p, ∀ id ∈ b.bucket p, (b.get id).isSome
  bounded : b.entries.size ≤ (NEW_BUCKETS + TRIED_BUCKETS) * BUCKET_SIZE
  selects : ∀ avoid cursor, b.select avoid cursor = none → ∀ id e, b.get id = some e → e.addr.group ∈ avoid

/-- Every known identity is in a bucket of the table its flag names. -/
def Complete (b : AddrBook) : Prop := ∀ id e, b.get id = some e → ∃ k, id ∈ b.bucket (e.tried, k)

section

variable {b : AddrBook} {avoid : List AddrGroup} {cursor : U64}

theorem group_mem_of_pick {slot : List PeerId} {id : PeerId} {e : Entry} (h : b.pick avoid cursor slot = none)
    (hid : id ∈ slot) (he : b.get id = some e) : e.addr.group ∈ avoid := by
  obtain ⟨j, hj, hslot⟩ := List.getElem_of_mem hid
  obtain ⟨i, hi, hij⟩ := exists_add_mod_eq hj (cursor.val % BUCKET_SIZE)
  rw [get] at he
  have hnone := List.findSome?_eq_none_iff.1 h i (List.mem_range.2 hi)
  rw [Nat.add_comm, hij, List.getElem?_eq_getElem hj, hslot] at hnone
  simpa [he] using hnone

theorem group_mem_of_select {p : Bool × ℕ} {id : PeerId} {e : Entry} (h : b.select avoid cursor = none)
    (hp : p.2 < tableSize p.1) (hid : id ∈ b.bucket p) (he : b.get id = some e) : e.addr.group ∈ avoid := by
  obtain ⟨tried, k⟩ := p
  have horder : tried ∈ (if cursor.val % 3 ≠ 0 then [true, false] else [false, true]) := by
    cases tried <;> split <;> simp
  obtain ⟨step, hstep, hindex⟩ := exists_add_mod_eq hp cursor.val
  have hdvd : tableSize tried ∣ 2 ^ 64 := by cases tried <;> decide
  obtain ⟨slot, hslot, hin⟩ := Std.TreeMap.mem_getD_iff.1 hid
  have hnone := List.findSome?_eq_none_iff.1 h tried horder
  cases tried with
  | true =>
    have hnone := List.findSome?_eq_none_iff.1 hnone step (List.mem_range.2 hstep)
    have hat : (cursor.val + step) % 2 ^ 64 % TRIED_BUCKETS = k := (Nat.mod_mod_of_dvd _ hdvd).trans hindex
    have hslot : b.triedTable[k]? = some slot := hslot
    simp only [hat, hslot, Option.bind_eq_bind, Option.bind_some] at hnone
    exact group_mem_of_pick hnone hin he
  | false =>
    have hnone := List.findSome?_eq_none_iff.1 hnone step (List.mem_range.2 hstep)
    have hat : (cursor.val + step) % 2 ^ 64 % NEW_BUCKETS = k := (Nat.mod_mod_of_dvd _ hdvd).trans hindex
    have hslot : b.newTable[k]? = some slot := hslot
    simp only [hat, hslot, Option.bind_eq_bind, Option.bind_some] at hnone
    exact group_mem_of_pick hnone hin he

end

variable [Crypto] {s s' : Sourced} {op : BookOp}

theorem Placed.lt (h : Placed s) {p : Bool × ℕ} {id : PeerId} (hid : id ∈ s.1.bucket p) : p.2 < tableSize p.1 := by
  obtain ⟨e, -, hbelongs⟩ := h.home p id hid
  exact hbelongs.lt

theorem Placed.length_occupants_le (h : Placed s) (tried : Bool) :
    (s.1.table tried).occupants.length ≤ tableSize tried * BUCKET_SIZE := by
  have hle := Std.TreeMap.length_occupants_le (t := s.1.table tried) (S := Finset.range (tableSize tried))
    (fun k => h.size_le (tried, k)) (fun k id hid => Finset.mem_range.2 (h.lt (p := (tried, k)) hid))
  rwa [Finset.card_range] at hle

theorem Placed.size_le_of_complete (h : Placed s) (hcomplete : s.1.Complete) :
    s.1.entries.size ≤ (NEW_BUCKETS + TRIED_BUCKETS) * BUCKET_SIZE := by
  have hsub : s.1.entries.keys ⊆ (s.1.table false).occupants ++ (s.1.table true).occupants := by
    intro id hid
    obtain ⟨e, he⟩ := Option.isSome_iff_exists.1 (Std.TreeMap.isSome_getElem?_iff_mem.2 (Std.TreeMap.mem_keys.1 hid))
    obtain ⟨k, hk⟩ := hcomplete id e he
    rw [List.mem_append, Std.TreeMap.mem_occupants, Std.TreeMap.mem_occupants]
    cases htried : e.tried with
    | false => exact .inl ⟨k, htried ▸ hk⟩
    | true => exact .inr ⟨k, htried ▸ hk⟩
  have hnew := h.length_occupants_le false
  have htried := h.length_occupants_le true
  have hnodup : s.1.entries.keys.Nodup := Std.TreeMap.nodup_keys
  calc s.1.entries.size = s.1.entries.keys.length := Std.TreeMap.length_keys.symm
    _ ≤ ((s.1.table false).occupants ++ (s.1.table true).occupants).length := (hnodup.subperm hsub).length_le
    _ = (s.1.table false).occupants.length + (s.1.table true).occupants.length := List.length_append
    _ ≤ tableSize false * BUCKET_SIZE + tableSize true * BUCKET_SIZE := Nat.add_le_add hnew htried
    _ = (NEW_BUCKETS + TRIED_BUCKETS) * BUCKET_SIZE := by decide

theorem Placed.keepsTrack_iff (h : Placed s) : s.1.KeepsTrack ↔ s.1.Complete := by
  constructor
  · intro hkeeps id e he
    obtain ⟨k, hcount, -⟩ := hkeeps.one_bucket id e he
    exact ⟨k, List.count_pos_iff.1 (by omega)⟩
  · intro hcomplete
    refine ⟨?_, h.size_le, ?_, h.size_le_of_complete hcomplete, ?_⟩
    · intro id e he
      obtain ⟨k, hk⟩ := hcomplete id e he
      exact ⟨k, List.count_eq_one_of_mem (h.nodup _) hk, fun p hp => h.single hp hk⟩
    · intro p id hid
      obtain ⟨e, he, -⟩ := h.home p id hid
      rw [he]
      rfl
    · intro avoid cursor hselect id e he
      obtain ⟨k, hk⟩ := hcomplete id e he
      exact group_mem_of_select hselect (h.lt hk) hk he

theorem Placed.complete_step_iff (h : Placed s) (hcomplete : s.1.Complete) (heffect : Effect s op s') :
    s'.1.Complete ↔ s.1.HasRoom op := by
  cases heffect with
  | stays idle => exact iff_of_true hcomplete idle
  | @counted op id e b' n _ idle known get bucket salt =>
    refine iff_of_true (fun x e' he' => ?_) idle
    simp only [bucket]
    rw [get] at he'
    split at he'
    · subst x
      cases he'
      exact hcomplete id e known
    · exact hcomplete x e' he'
  | @placed addr source b' out unknown failed room get bucket salt =>
    have hin : ∀ k, addr.id ∉ s.1.bucket (false, k) := fun k => h.not_mem_of_unknown unknown
    refine iff_of_true (fun x e' he' => ?_) (fun _ _ hop => nomatch hop)
    simp only [bucket, h.mem_moveTo hin fun o ho => (failed o ho).1]
    rw [get] at he'
    split at he'
    · cases he'
      exact ⟨_, .inl ⟨‹_›, rfl⟩⟩
    · split at he'
      · cases he'
      · obtain ⟨k, hk⟩ := hcomplete x e' he'
        exact ⟨k, .inr ⟨hk, ‹_›, ‹_›⟩⟩
  | @promoted id e b' out known untried demoted room get bucket salt =>
    have hin := h.not_mem_tried known untried
    have hmem : ∀ x p, x ∈ b'.bucket p ↔
        x = id ∧ p = (true, s.1.triedBucket e.addr) ∨ x ∈ s.1.bucket p ∧ x ≠ id ∧ out ≠ some x := by
      intro x p
      rw [bucket]
      exact h.mem_moveTo hin demoted
    cases out with
    | none =>
      have hroom : s.1.HasRoom (.markGood id) := fun id' e' hop he' _ => by
        cases hop
        cases known.symm.trans he'
        exact room.2 rfl
      refine iff_of_true (fun x e' he' => ?_) hroom
      simp only [hmem]
      rw [get] at he'
      split at he'
      · cases he'
        exact ⟨_, .inl ⟨‹_›, rfl⟩⟩
      · rw [if_neg (by simp)] at he'
        obtain ⟨k, hk⟩ := hcomplete x e' he'
        exact ⟨k, .inr ⟨hk, ‹_›, by simp⟩⟩
    | some o =>
      refine iff_of_false (fun hcomplete' => ?_) (fun hroom => ?_)
      · -- the demoted one is known and in no bucket
        have ho := demoted o rfl
        have hne : o ≠ id := fun heq => hin _ (heq ▸ ho)
        obtain ⟨e', he', -⟩ := h.home _ _ ho
        have hget : b'.get o = some { e' with tried := false } := by
          rw [get, if_neg hne, if_pos rfl, he']
          rfl
        obtain ⟨k, hk⟩ := hcomplete' o _ hget
        rcases (hmem _ _).1 hk with ⟨heq, -⟩ | ⟨-, -, hstays⟩
        · exact hne heq
        · exact hstays rfl
      · cases room.1 (hroom id e rfl known untried)

theorem complete_take_iff (salt : Hash32) (ops : List BookOp) :
    (∀ n, ((empty salt).after (ops.take n)).Complete) ↔
      ∀ n op, ops[n]? = some op → ((empty salt).after (ops.take n)).HasRoom op := by
  have hstep : ∀ n op, ops[n]? = some op → ((empty salt).after (ops.take n)).Complete →
      (((empty salt).after (ops.take (n + 1))).Complete ↔ ((empty salt).after (ops.take n)).HasRoom op) := by
    intro n op hop hcomplete
    rw [List.take_add_one, hop, Option.toList_some, ← sourced_fst, sourced_append]
    rw [← sourced_fst] at hcomplete ⊢
    exact (sourced_placed salt _).complete_step_iff hcomplete (apply_effect (sourced_placed salt _) op)
  constructor
  · intro hall n op hop
    exact (hstep n op hop (hall n)).1 (hall (n + 1))
  · intro hroom n
    induction n with
    | zero =>
      intro id e he
      simp [after, empty, get] at he
    | succ n ih =>
      cases hop : ops[n]? with
      | none => rwa [List.take_add_one, hop, Option.toList_none, List.append_nil]
      | some op => exact (hstep n op hop ih).2 (hroom n op hop)

end AfroLink.AddrBook

namespace AfroLink

open AddrBook

/-- In every run nothing is in two buckets, in a bucket of the wrong table or unknown, and no bucket is too long. Every
known identity is in a bucket, the book is bounded and `select` finds what there is, up to the first time an untried
identity is marked good while its bucket of the tried table is full. -/
theorem addrBook_keeps_track [Crypto] (key : SecretKey) (ops : List BookOp) :
    (∀ p, (((AddrBook.new key).after ops).bucket p).length ≤ BUCKET_SIZE ∧
        (((AddrBook.new key).after ops).bucket p).Nodup) ∧
      (∀ p, ∀ id ∈ ((AddrBook.new key).after ops).bucket p,
        ∃ e, ((AddrBook.new key).after ops).get id = some e ∧ p.1 = e.tried) ∧
      (∀ p q id, id ∈ ((AddrBook.new key).after ops).bucket p → id ∈ ((AddrBook.new key).after ops).bucket q → p = q) ∧
      ((∀ n, ((AddrBook.new key).after (ops.take n)).KeepsTrack) ↔
        ∀ n op, ops[n]? = some op → ((AddrBook.new key).after (ops.take n)).HasRoom op) := by
  have hplaced := sourced_placed (AddrBook.new key).salt
  have hkeeps : ∀ ops, ((AddrBook.new key).after ops).KeepsTrack ↔ ((AddrBook.new key).after ops).Complete := by
    intro ops
    have h := (hplaced ops).keepsTrack_iff
    rwa [sourced_fst] at h
  have h := hplaced ops
  refine ⟨fun p => ?_, fun p id hid => ?_, fun p q id hp hq => ?_, ?_⟩
  · have hp := And.intro (h.size_le p) (h.nodup p)
    rwa [sourced_fst] at hp
  · have hhome := h.home p id
    rw [sourced_fst] at hhome
    obtain ⟨e, he, hbelongs⟩ := hhome hid
    exact ⟨e, he, hbelongs.1⟩
  · rw [← sourced_fst] at hp hq
    exact h.single hp hq
  · simp only [hkeeps]
    exact complete_take_iff (AddrBook.new key).salt ops

namespace Tagged

def host (n : ℕ) : PeerAddr := ⟨⟨⟨Fin.ofNat _ (n + 1)⟩⟩, ⟨.v4 #v[10, Fin.ofNat _ n, 0, 1], 9000⟩⟩

/-- Nine hosts, each of a group of its own, that were heard of and then answered. -/
def answering : List BookOp :=
  (List.range 9).flatMap fun n => [.add (host n) (host n).group, .markGood (host n).id]

/-- The ninth takes the place of the eighth, which is then known and in no bucket: with the groups of the others
avoided, nothing is left to dial. -/
theorem addrBook_loses :
    ((AddrBook.new (Sample.key 0)).after answering).get (host 7).id = some ⟨host 7, 0, false⟩ ∧
      (host 7).id ∉ ((AddrBook.new (Sample.key 0)).after answering).newTable.occupants ∧
      (host 7).id ∉ ((AddrBook.new (Sample.key 0)).after answering).triedTable.occupants ∧
      ¬((AddrBook.new (Sample.key 0)).after answering).KeepsTrack := by
  have hget : ((AddrBook.new (Sample.key 0)).after answering).get (host 7).id = some ⟨host 7, 0, false⟩ := by
    decide +kernel
  have hselect : ((AddrBook.new (Sample.key 0)).after answering).select
      ([0, 1, 2, 3, 4, 5, 6, 8].map fun n => (host n).group) 0 = none := by
    decide +kernel
  refine ⟨hget, by decide +kernel, by decide +kernel, fun hkeeps => ?_⟩
  have havoided := hkeeps.selects _ _ hselect _ _ hget
  revert havoided
  decide +kernel

end Tagged

/-! ## What one group can fill -/

namespace AddrBook

section

variable [Crypto]

/-- The buckets of the new table that addresses from a source of group `g` can be put into. -/
def sourceBuckets (b : AddrBook) (g : AddrGroup) : Finset ℕ :=
  (Finset.range NEW_BUCKETS_PER_SOURCE).image fun index =>
    b.hash [utf8Bytes "new2", g.asBytes.toList, leBytes 8 index] % NEW_BUCKETS

/-- The buckets of the tried table that addresses of group `g` can be put into. -/
def groupBuckets (b : AddrBook) (g : AddrGroup) : Finset ℕ :=
  (Finset.range TRIED_BUCKETS_PER_GROUP).image fun index =>
    b.hash [utf8Bytes "tried2", g.asBytes.toList, leBytes 8 index] % TRIED_BUCKETS

theorem card_sourceBuckets_le (b : AddrBook) (g : AddrGroup) : (b.sourceBuckets g).card ≤ NEW_BUCKETS_PER_SOURCE :=
  Finset.card_image_le.trans_eq (Finset.card_range _)

theorem card_groupBuckets_le (b : AddrBook) (g : AddrGroup) : (b.groupBuckets g).card ≤ TRIED_BUCKETS_PER_GROUP :=
  Finset.card_image_le.trans_eq (Finset.card_range _)

theorem newBucket_mem (b : AddrBook) (addr : PeerAddr) (g : AddrGroup) : b.newBucket addr g ∈ b.sourceBuckets g :=
  Finset.mem_image_of_mem (fun index => b.hash [utf8Bytes "new2", g.asBytes.toList, leBytes 8 index] % NEW_BUCKETS)
    (Finset.mem_range.2 (Nat.mod_lt _ (by decide)))

theorem triedBucket_mem (b : AddrBook) (addr : PeerAddr) : b.triedBucket addr ∈ b.groupBuckets addr.group :=
  Finset.mem_image_of_mem
    (fun index => b.hash [utf8Bytes "tried2", addr.group.asBytes.toList, leBytes 8 index] % TRIED_BUCKETS)
    (Finset.mem_range.2 (Nat.mod_lt _ (by decide)))

variable {s s' : Sourced} {op : BookOp} {id : PeerId}

theorem Placed.length_from_source_le (h : Placed s) (g : AddrGroup) :
    (s.1.newTable.occupants.filter (s.2 · = some g)).length ≤ NEW_BUCKETS_PER_SOURCE * BUCKET_SIZE := by
  refine (Std.TreeMap.length_filter_occupants_le (S := s.1.sourceBuckets g) (fun k => h.size_le (false, k)) ?_).trans
    (Nat.mul_le_mul_right _ (card_sourceBuckets_le _ g))
  intro k id hid hsource
  obtain ⟨e, -, htried, hindex⟩ := h.home (false, k) id hid
  rw [← htried, if_neg (by simp)] at hindex
  obtain ⟨g', hg', hk⟩ := hindex
  cases hg'.symm.trans (of_decide_eq_true hsource)
  have hk : k = s.1.newBucket e.addr g := hk
  rw [hk]
  exact newBucket_mem ..

theorem Placed.length_of_group_le (h : Placed s) (g : AddrGroup) :
    (s.1.triedTable.occupants.filter fun id => (s.1.get id).map (·.addr.group) = some g).length ≤
      TRIED_BUCKETS_PER_GROUP * BUCKET_SIZE := by
  refine (Std.TreeMap.length_filter_occupants_le (S := s.1.groupBuckets g) (fun k => h.size_le (true, k)) ?_).trans
    (Nat.mul_le_mul_right _ (card_groupBuckets_le _ g))
  intro k id hid hgroup
  obtain ⟨e, he, htried, hindex⟩ := h.home (true, k) id hid
  rw [← htried, if_pos rfl] at hindex
  have hgroup := of_decide_eq_true hgroup
  rw [he, Option.map_some, Option.some.injEq] at hgroup
  have hk : k = s.1.triedBucket e.addr := hindex
  rw [hk, ← hgroup]
  exact triedBucket_mem ..

theorem Placed.eq_markGood (h : Placed s) (heffect : Effect s op s') (hbefore : id ∉ s.1.triedTable.occupants)
    (hafter : id ∈ s'.1.triedTable.occupants) : op = .markGood id := by
  rw [Std.TreeMap.mem_occupants] at hbefore hafter
  obtain ⟨k, hk⟩ := hafter
  have hk : id ∈ s'.1.bucket (true, k) := hk
  have hbefore : id ∉ s.1.bucket (true, k) := fun hin => hbefore ⟨k, hin⟩
  cases heffect with
  | stays => exact absurd hk hbefore
  | counted n _ _ known get bucket salt =>
    rw [bucket] at hk
    exact absurd hk hbefore
  | placed out unknown failed room get bucket salt =>
    rw [bucket, h.mem_moveTo (fun k => h.not_mem_of_unknown unknown) fun o ho => (failed o ho).1] at hk
    rcases hk with ⟨-, hat⟩ | ⟨hk, -⟩
    · cases hat
    · exact absurd hk hbefore
  | promoted out known untried demoted room get bucket salt =>
    rw [bucket, h.mem_moveTo (h.not_mem_tried known untried) demoted] at hk
    rcases hk with ⟨rfl, -⟩ | ⟨hk, -⟩
    · rfl
    · exact absurd hk hbefore

theorem Placed.keeps_unfailed (h : Placed s) {addr : PeerAddr} {source : AddrGroup} {e : Entry}
    (heffect : Effect s (.add addr source) s') (he : s.1.get id = some e) (hfailures : e.failures = 0) :
    s'.1.get id = some e ∧ ∀ p, id ∈ s.1.bucket p → id ∈ s'.1.bucket p := by
  cases heffect with
  | stays => exact ⟨he, fun _ hin => hin⟩
  | counted n marks => simp at marks
  | placed out unknown failed room get bucket salt =>
    have hne : id ≠ addr.id := fun heq => by
      rw [heq, unknown] at he
      cases he
    have hout : out ≠ some id := fun heq => by
      obtain ⟨-, e', he', hfailed⟩ := failed id heq
      cases he.symm.trans he'
      exact hfailed hfailures
    refine ⟨by rw [get, if_neg hne, if_neg hout, he], fun p hin => ?_⟩
    rw [bucket, h.mem_moveTo (fun k => h.not_mem_of_unknown unknown) fun o ho => (failed o ho).1]
    exact .inr ⟨hin, hne, hout⟩

end

end AddrBook

/-- For every salt, hash function and run: what one source group or one address group can fill is bounded, only an
answer leads into the tried table, and no newcomer displaces an address that never failed. -/
theorem addrBook_costs_groups [Crypto] (salt : Hash32) (ops : List BookOp) :
    (∀ g, (((empty salt).after ops).newTable.occupants.filter ((empty salt).sources ops · = some g)).length ≤
        NEW_BUCKETS_PER_SOURCE * BUCKET_SIZE) ∧
      (∀ g, (((empty salt).after ops).triedTable.occupants.filter fun id =>
          (((empty salt).after ops).get id).map (·.addr.group) = some g).length ≤
        TRIED_BUCKETS_PER_GROUP * BUCKET_SIZE) ∧
      (∀ op id, id ∉ ((empty salt).after ops).triedTable.occupants →
        id ∈ (((empty salt).after ops).apply op).triedTable.occupants → op = .markGood id) ∧
      ∀ addr source id e, ((empty salt).after ops).get id = some e → e.failures = 0 →
        (((empty salt).after ops).add addr source).1.get id = some e ∧
          ∀ p, id ∈ ((empty salt).after ops).bucket p →
            id ∈ (((empty salt).after ops).add addr source).1.bucket p := by
  have h := sourced_placed salt ops
  rw [← sourced_fst, sources]
  refine ⟨h.length_from_source_le, h.length_of_group_le, fun op id => ?_, fun addr source id e => ?_⟩
  · exact h.eq_markGood (apply_effect h op)
  · exact h.keeps_unfailed (apply_effect h (.add addr source))

end AfroLink
