import AfroLink.Base.Buckets
import AfroLink.P2p.AddrBook

/-!
# What an operation does to the address book

The book is read through two functions: the entry of an identity and the identities in a bucket. Every operation is
described by its effect on them, and what holds over a run is derived from that.
-/

namespace AfroLink

inductive BookOp where
  | add (addr : PeerAddr) (source : AddrGroup)
  | markGood (id : PeerId)
  | markFailed (id : PeerId)
deriving DecidableEq

namespace AddrBook

def empty (salt : Hash32) : AddrBook := ⟨∅, ∅, ∅, salt⟩

def table (b : AddrBook) (tried : Bool) : BucketTable := if tried then b.triedTable else b.newTable

/-- The identities in a bucket of the tried or the new table. -/
def bucket (b : AddrBook) (at_ : Bool × ℕ) : List PeerId := (b.table at_.1).getD at_.2 []

def tableSize (tried : Bool) : ℕ := if tried then TRIED_BUCKETS else NEW_BUCKETS

variable [Crypto]

def apply (b : AddrBook) : BookOp → AddrBook
  | .add addr source => (b.add addr source).1
  | .markGood id => b.markGood id
  | .markFailed id => b.markFailed id

def after (b : AddrBook) (ops : List BookOp) : AddrBook := ops.foldl apply b

/-- A book, and for each identity the group of the source that the last accepted `add` of it named. -/
abbrev Sourced := AddrBook × (PeerId → Option AddrGroup)

def Sourced.apply (s : Sourced) (op : BookOp) : Sourced :=
  (s.1.apply op, match op with
    | .add addr source => if (s.1.add addr source).2 then Function.update s.2 addr.id (some source) else s.2
    | _ => s.2)

def sourced (b : AddrBook) (ops : List BookOp) : Sourced := ops.foldl Sourced.apply (b, fun _ => none)

def sources (b : AddrBook) (ops : List BookOp) : PeerId → Option AddrGroup := (b.sourced ops).2

/-- The buckets once `id` has left the one table for a bucket of the other, and `out` that bucket. -/
def moveTo (buckets : Bool × ℕ → List PeerId) (id : PeerId) (at_ : Bool × ℕ) (out : Option PeerId)
    (p : Bool × ℕ) : List PeerId :=
  if p = at_ then (buckets p).filter (out ≠ some ·) ++ [id]
  else if p.1 = at_.1 then buckets p else (buckets p).filter (· ≠ id)

/-- An untried identity is not marked good while its bucket of the tried table is full. -/
def HasRoom (b : AddrBook) (op : BookOp) : Prop :=
  ∀ id e, op = .markGood id → b.get id = some e → e.tried = false →
    (b.bucket (true, b.triedBucket e.addr)).length < BUCKET_SIZE

/-- What an operation does to the entries, the buckets and the sources. -/
inductive Effect (s : Sourced) : BookOp → Sourced → Prop
  | stays {op : BookOp} (idle : s.1.HasRoom op) : Effect s op s
  | counted {op : BookOp} {id : PeerId} {e : Entry} {b' : AddrBook} (n : U32) (marks : op = .markGood id ∨ op = .markFailed id)
      (idle : s.1.HasRoom op) (known : s.1.get id = some e)
      (get : ∀ x, b'.get x = if x = id then some { e with failures := n } else s.1.get x)
      (bucket : ∀ p, b'.bucket p = s.1.bucket p) (salt : b'.salt = s.1.salt) : Effect s op (b', s.2)
  /-- A new identity, in the place of one that failed if the bucket was full. -/
  | placed {addr : PeerAddr} {source : AddrGroup} {b' : AddrBook} (out : Option PeerId)
      (unknown : s.1.get addr.id = none)
      (failed : ∀ o ∈ out, o ∈ s.1.bucket (false, s.1.newBucket addr source) ∧
        ∃ e, s.1.get o = some e ∧ e.failures ≠ 0)
      (room : (s.1.bucket (false, s.1.newBucket addr source)).length < BUCKET_SIZE ∨ out.isSome)
      (get : ∀ x, b'.get x =
        if x = addr.id then some ⟨addr, 0, false⟩ else if out = some x then none else s.1.get x)
      (bucket : ∀ p, b'.bucket p = moveTo s.1.bucket addr.id (false, s.1.newBucket addr source) out p)
      (salt : b'.salt = s.1.salt) :
      Effect s (.add addr source) (b', Function.update s.2 addr.id (some source))
  /-- An identity that answered. If its bucket was full, one leaves it and goes nowhere. -/
  | promoted {id : PeerId} {e : Entry} {b' : AddrBook} (out : Option PeerId)
      (known : s.1.get id = some e) (untried : e.tried = false)
      (demoted : ∀ o ∈ out, o ∈ s.1.bucket (true, s.1.triedBucket e.addr))
      (room : (s.1.bucket (true, s.1.triedBucket e.addr)).length < BUCKET_SIZE ↔ out = none)
      (get : ∀ x, b'.get x =
        if x = id then some { e with failures := 0, tried := true }
        else if out = some x then (s.1.get x).map ({ · with tried := false }) else s.1.get x)
      (bucket : ∀ p, b'.bucket p = moveTo s.1.bucket id (true, s.1.triedBucket e.addr) out p)
      (salt : b'.salt = s.1.salt) : Effect s (.markGood id) (b', s.2)

/-- Where an entry lies: an untried one in a bucket of its source's group, a tried one in a bucket of its own. -/
def Belongs (s : Sourced) (id : PeerId) (e : Entry) (at_ : Bool × ℕ) : Prop :=
  at_.1 = e.tried ∧
    if e.tried then at_.2 = s.1.triedBucket e.addr else ∃ g, s.2 id = some g ∧ at_.2 = s.1.newBucket e.addr g

structure Placed (s : Sourced) : Prop where
  size_le : ∀ p, (s.1.bucket p).length ≤ BUCKET_SIZE
  nodup : ∀ p, (s.1.bucket p).Nodup
  home : ∀ p, ∀ id ∈ s.1.bucket p, ∃ e, s.1.get id = some e ∧ Belongs s id e p

section

variable {b : AddrBook} {s : Sourced} {id : PeerId} {e : Entry} {p q : Bool × ℕ}

theorem newBucket_congr {b' : AddrBook} (h : b'.salt = b.salt) : b'.newBucket = b.newBucket := by
  funext addr source
  simp only [newBucket, hash, h]

theorem triedBucket_congr {b' : AddrBook} (h : b'.salt = b.salt) : b'.triedBucket = b.triedBucket := by
  funext addr
  simp only [triedBucket, hash, h]

theorem Belongs.unique (hp : Belongs s id e p) (hq : Belongs s id e q) : p = q := by
  obtain ⟨hp, hp'⟩ := hp
  obtain ⟨hq, hq'⟩ := hq
  refine Prod.ext (hp.trans hq.symm) ?_
  split at hp'
  · rw [if_pos ‹_›] at hq'
    exact hp'.trans hq'.symm
  · rw [if_neg ‹_›] at hq'
    obtain ⟨g, hg, hp'⟩ := hp'
    obtain ⟨g', hg', hq'⟩ := hq'
    cases hg.symm.trans hg'
    exact hp'.trans hq'.symm

theorem Belongs.lt (h : Belongs s id e p) : p.2 < tableSize p.1 := by
  obtain ⟨htried, hindex⟩ := h
  rw [htried, tableSize]
  split at hindex
  · rw [if_pos ‹_›, hindex]
    exact Nat.mod_lt _ (by decide)
  · rw [if_neg ‹_›]
    obtain ⟨g, -, hindex⟩ := hindex
    rw [hindex]
    exact Nat.mod_lt _ (by decide)

theorem Placed.single (h : Placed s) (hp : id ∈ s.1.bucket p) (hq : id ∈ s.1.bucket q) : p = q := by
  obtain ⟨e, he, hp⟩ := h.home p id hp
  obtain ⟨e', he', hq⟩ := h.home q id hq
  cases he.symm.trans he'
  exact hp.unique hq

theorem Placed.of_mem (h : Placed s) (he : s.1.get id = some e) (hp : id ∈ s.1.bucket p) : Belongs s id e p := by
  obtain ⟨e', he', hp⟩ := h.home p id hp
  cases he.symm.trans he'
  exact hp

theorem Placed.not_mem_of_unknown (h : Placed s) (hid : s.1.get id = none) : id ∉ s.1.bucket p := by
  intro hp
  obtain ⟨e, he, -⟩ := h.home p id hp
  rw [hid] at he
  cases he

theorem Placed.not_mem_tried (h : Placed s) (he : s.1.get id = some e)
    (htried : e.tried = false) (k : ℕ) : id ∉ s.1.bucket (true, k) := by
  intro hin
  have := (h.of_mem he hin).1
  rw [htried] at this
  cases this

end

/-! ## The effects of the operations -/

section

variable {s : Sourced}

omit [Crypto] in
theorem get_insert (entries : Std.TreeMap PeerId Entry) (id : PeerId) (e : Entry) (x : PeerId) :
    (entries.insert id e)[x]? = if x = id then some e else entries[x]? := by
  simp only [Std.TreeMap.getElem?_insert, Std.compare_eq_iff_eq, eq_comm (a := x)]

omit [Crypto] in
theorem get_erase (entries : Std.TreeMap PeerId Entry) (id x : PeerId) :
    (entries.erase id)[x]? = if some id = some x then none else entries[x]? := by
  simp only [Std.TreeMap.getElem?_erase, Std.compare_eq_iff_eq, Option.some.injEq]

omit [Crypto] in
theorem getD_insert_slot (t : BucketTable) (k : ℕ) (slot : List PeerId) (i : ℕ) :
    (t.insert k slot).getD i [] = if i = k then slot else t.getD i [] := by
  simp only [Std.TreeMap.getD_insert, Std.compare_eq_iff_eq, eq_comm (a := i)]

omit [Crypto] in
theorem getD_map_filter (t : BucketTable) (p : PeerId → Bool) (k : ℕ) :
    (t.map fun _ slot => slot.filter p : BucketTable).getD k [] = (t.getD k []).filter p := by
  simp only [Std.TreeMap.getD_eq_getD_getElem?, Std.TreeMap.getElem?_map]
  cases t[k]? <;> rfl

theorem markFailed_effect (s : Sourced) (id : PeerId) : Effect s (.markFailed id) (s.1.markFailed id, s.2) := by
  have idle : s.1.HasRoom (.markFailed id) := fun _ _ hop => nomatch hop
  rw [markFailed]
  split
  · exact .stays idle
  · rename_i e he
    exact .counted _ (by simp) idle he (get_insert s.1.entries id _) (fun _ => rfl) rfl

theorem placed_effect (h : Placed s) {addr : PeerAddr} {source : AddrGroup} (out : Option PeerId) {entries : Std.TreeMap PeerId Entry}
    {slot : List PeerId} (unknown : s.1.get addr.id = none)
    (failed : ∀ o ∈ out, o ∈ s.1.bucket (false, s.1.newBucket addr source) ∧ ∃ e, s.1.get o = some e ∧ e.failures ≠ 0)
    (room : (s.1.bucket (false, s.1.newBucket addr source)).length < BUCKET_SIZE ∨ out.isSome)
    (hentries : ∀ x, entries[x]? = if out = some x then none else s.1.get x)
    (hslot : slot = (s.1.bucket (false, s.1.newBucket addr source)).filter (out ≠ some ·)) :
    Effect s (.add addr source)
      ({ s.1 with
          newTable := s.1.newTable.insert (s.1.newBucket addr source) (slot ++ [addr.id])
          entries := entries.insert addr.id ⟨addr, 0, false⟩ },
        Function.update s.2 addr.id (some source)) := by
  refine .placed out unknown failed room (fun x => ?_) (fun p => ?_) rfl
  · rw [get, get_insert, hentries]
  · obtain ⟨tried, k⟩ := p
    cases tried with
    | true =>
      -- an unknown identity is in no bucket
      have hfilter : (s.1.bucket (true, k)).filter (· ≠ addr.id) = s.1.bucket (true, k) :=
        List.filter_eq_self.2 fun x hx => decide_eq_true fun heq => h.not_mem_of_unknown unknown (heq ▸ hx)
      rw [moveTo, if_neg (by simp), if_neg (by simp), hfilter]
      rfl
    | false =>
      simp only [moveTo, bucket, table, Bool.false_eq_true, if_false, if_true, getD_insert_slot, hslot, Prod.mk.injEq,
        true_and]
      split
      · subst k
        rfl
      · rfl

theorem add_effect (h : Placed s) (addr : PeerAddr) (source : AddrGroup) :
    Effect s (.add addr source) (s.apply (.add addr source)) := by
  have idle : s.1.HasRoom (.add addr source) := fun _ _ hop => nomatch hop
  rcases hadd : s.1.add addr source with ⟨b', accepted⟩
  simp only [Sourced.apply, apply, hadd]
  simp only [add] at hadd
  split at hadd
  · cases hadd
    exact .stays idle
  · rename_i hnew
    have unknown : s.1.get addr.id = none :=
      Std.TreeMap.getElem?_eq_none_of_contains_eq_false (Bool.eq_false_iff.2 hnew)
    split at hadd
    · rename_i hroom
      cases hadd
      refine placed_effect h none unknown (by simp) (.inl hroom) (fun x => ?_) ?_
      · simp [get]
      · simp [bucket, table]
    · split at hadd
      · cases hadd
        exact .stays idle
      · rename_i out hworst
        split at hadd
        · cases hadd
          exact .stays idle
        · rename_i e he
          split at hadd
          · cases hadd
            exact .stays idle
          · rename_i hfailed
            cases hadd
            refine placed_effect h (some out) unknown ?_ (.inr rfl) (fun x => ?_) ?_
            · intro o ho
              cases ho
              exact ⟨List.mem_of_lastMaxBy hworst, e, he, hfailed⟩
            · exact get_erase _ _ _
            · simp [bucket, table, eq_comm]

theorem promoted_effect {id : PeerId} {e : Entry} (out : Option PeerId) {entries : Std.TreeMap PeerId Entry}
    {slot : List PeerId} (known : s.1.get id = some e) (untried : e.tried = false)
    (demoted : ∀ o ∈ out, o ∈ s.1.bucket (true, s.1.triedBucket e.addr))
    (room : (s.1.bucket (true, s.1.triedBucket e.addr)).length < BUCKET_SIZE ↔ out = none)
    (hentries : ∀ x, entries[x]? =
      if x = id then some { e with failures := 0, tried := true }
      else if out = some x then (s.1.get x).map ({ · with tried := false }) else s.1.get x)
    (hslot : slot = (s.1.bucket (true, s.1.triedBucket e.addr)).filter (out ≠ some ·)) :
    Effect s (.markGood id)
      ({ s.1 with
          entries
          newTable := s.1.newTable.map fun _ slot => slot.filter (· ≠ id)
          triedTable := s.1.triedTable.insert (s.1.triedBucket e.addr) (slot ++ [id]) }, s.2) := by
  refine .promoted out known untried demoted room hentries (fun p => ?_) rfl
  obtain ⟨tried, k⟩ := p
  cases tried with
  | false => simp [moveTo, bucket, table, getD_map_filter]
  | true =>
    simp only [moveTo, bucket, table, if_true, getD_insert_slot, hslot, Prod.mk.injEq, true_and]
    split
    · subst k
      rfl
    · rfl

theorem markGood_effect (h : Placed s) (id : PeerId) : Effect s (.markGood id) (s.1.markGood id, s.2) := by
  rw [markGood]
  split
  · rename_i hnone
    refine .stays fun id' e hop he => ?_
    cases hop
    cases hnone.symm.trans he
  · rename_i e he
    split
    · rename_i htried
      have idle : s.1.HasRoom (.markGood id) := fun id' e' hop he' htried' => by
        cases hop
        cases he.symm.trans he'
        rw [htried] at htried'
        cases htried'
      exact .counted _ (by simp) idle he (get_insert s.1.entries id _) (fun _ => rfl) rfl
    · rename_i htried
      have untried : e.tried = false := by simpa using htried
      have hnot := h.not_mem_tried he untried (s.1.triedBucket e.addr)
      by_cases hroom : (s.1.triedTable.getD (s.1.triedBucket e.addr) []).length < BUCKET_SIZE
      · simp only [if_pos hroom]
        refine promoted_effect none he untried (by simp) ⟨fun _ => rfl, fun _ => hroom⟩ (fun x => ?_) ?_
        · simp [get_insert, get]
        · simp [bucket, table]
      · simp only [if_neg hroom]
        split
        · rename_i hworst
          rw [worst, List.lastMaxBy_eq_none_iff] at hworst
          rw [hworst] at hroom
          exact absurd (by decide) hroom
        · rename_i out hworst
          have hmem : out ∈ s.1.bucket (true, s.1.triedBucket e.addr) := List.mem_of_lastMaxBy hworst
          have hne : out ≠ id := fun heq => hnot (heq ▸ hmem)
          obtain ⟨o, ho, -⟩ := h.home _ _ hmem
          refine promoted_effect (some out) he untried ?_ (iff_of_false hroom (by simp)) (fun x => ?_) ?_
          · intro o ho
            cases ho
            exact hmem
          · have hout : (s.1.entries.insert id { e with failures := 0, tried := true })[out]? = some o := by
              rw [get_insert, if_neg hne]
              exact ho
            simp only [hout, get_insert, Option.some.injEq]
            by_cases hx : x = out
            · subst x
              simp [hne, ho]
            · simp [hx, Ne.symm hx, get]
          · simp [bucket, table, eq_comm]

theorem apply_effect (h : Placed s) (op : BookOp) : Effect s op (s.apply op) := by
  cases op with
  | add addr source => exact add_effect h addr source
  | markGood id => exact markGood_effect h id
  | markFailed id => exact markFailed_effect s id

end

/-! ## What every run keeps -/

section

variable {s s' : Sourced} {op : BookOp}

theorem Belongs.congr {id : PeerId} {e e' : Entry} {p : Bool × ℕ} (h : Belongs s id e p)
    (hsalt : s'.1.salt = s.1.salt) (hsource : s'.2 id = s.2 id) (haddr : e'.addr = e.addr)
    (htried : e'.tried = e.tried) : Belongs s' id e' p := by
  rw [Belongs, newBucket_congr hsalt, triedBucket_congr hsalt, hsource, haddr, htried]
  exact h

section

variable {id x : PeerId} {at_ p : Bool × ℕ} {out : Option PeerId}

theorem Placed.length_moveTo_le (h : Placed s) (hout : ∀ o ∈ out, o ∈ s.1.bucket at_)
    (hroom : (s.1.bucket at_).length < BUCKET_SIZE ∨ out.isSome) :
    (moveTo s.1.bucket id at_ out p).length ≤ BUCKET_SIZE := by
  have hsize := h.size_le p
  rw [moveTo]
  split
  · subst p
    rw [List.length_append, List.length_singleton]
    rcases hroom with hroom | hsome
    · have := List.length_filter_le (out ≠ some ·) (s.1.bucket at_)
      omega
    · obtain ⟨o, rfl⟩ := Option.isSome_iff_exists.1 hsome
      have hlt : ((s.1.bucket at_).filter (some o ≠ some ·)).length < (s.1.bucket at_).length :=
        List.length_filter_lt_length_iff_exists.2 ⟨o, hout o rfl, by simp⟩
      omega
  · split
    · exact hsize
    · exact (List.length_filter_le _ _).trans hsize

theorem Placed.nodup_moveTo (h : Placed s) (hin : ∀ k, id ∉ s.1.bucket (at_.1, k)) :
    (moveTo s.1.bucket id at_ out p).Nodup := by
  have hnodup := h.nodup p
  rw [moveTo]
  split
  · subst p
    refine (hnodup.filter _).append (List.nodup_singleton id) ?_
    intro x hx hx'
    cases List.mem_singleton.1 hx'
    exact hin at_.2 (List.mem_of_mem_filter hx)
  · split
    · exact hnodup
    · exact hnodup.filter _

theorem Placed.mem_moveTo (h : Placed s) (hin : ∀ k, id ∉ s.1.bucket (at_.1, k))
    (hout : ∀ o ∈ out, o ∈ s.1.bucket at_) :
    x ∈ moveTo s.1.bucket id at_ out p ↔ x = id ∧ p = at_ ∨ x ∈ s.1.bucket p ∧ x ≠ id ∧ out ≠ some x := by
  have hout' : p ≠ at_ → x ∈ s.1.bucket p → out ≠ some x := fun hp hx heq => hp (h.single hx (hout x heq))
  have hin' : p.1 = at_.1 → x ∈ s.1.bucket p → x ≠ id := by
    intro hp hx heq
    subst x
    exact hin p.2 (by rwa [← hp])
  rw [moveTo]
  by_cases hp : p = at_
  · have := hin' (by rw [hp])
    simp only [if_pos hp, List.mem_append, List.mem_filter, List.mem_singleton, decide_eq_true_eq]
    tauto
  · rw [if_neg hp]
    split
    · have := hin' ‹_›
      tauto
    · simp only [List.mem_filter, decide_eq_true_eq]
      tauto

end

theorem Placed.step (h : Placed s) (heffect : Effect s op s') : Placed s' := by
  cases heffect with
  | stays => exact h
  | counted n _ _ known get bucket salt =>
    refine ⟨fun p => bucket p ▸ h.size_le p, fun p => bucket p ▸ h.nodup p, fun p x hx => ?_⟩
    obtain ⟨e', he', hbelongs⟩ := h.home p x (bucket p ▸ hx)
    rw [get]
    split
    · subst x
      cases known.symm.trans he'
      exact ⟨_, rfl, hbelongs.congr salt rfl rfl rfl⟩
    · exact ⟨e', he', hbelongs.congr salt rfl rfl rfl⟩
  | @placed addr source b' out unknown failed room get bucket salt =>
    have hin : ∀ k, addr.id ∉ s.1.bucket (false, k) := fun k => h.not_mem_of_unknown unknown
    have hout := fun o ho => (failed o ho).1
    refine ⟨fun p => bucket p ▸ h.length_moveTo_le hout room, fun p => bucket p ▸ h.nodup_moveTo hin, fun p x hx => ?_⟩
    rw [bucket, h.mem_moveTo hin hout] at hx
    rw [get]
    rcases hx with ⟨rfl, rfl⟩ | ⟨hx, hne, hstays⟩
    · rw [if_pos rfl]
      refine ⟨_, rfl, rfl, source, Function.update_self .., ?_⟩
      rw [newBucket_congr salt]
    · obtain ⟨e', he', hbelongs⟩ := h.home p x hx
      rw [if_neg hne, if_neg hstays]
      exact ⟨e', he', hbelongs.congr salt (Function.update_of_ne hne ..) rfl rfl⟩
  | @promoted id e b' out known untried demoted room get bucket salt =>
    have hin := h.not_mem_tried known untried
    have hroom : (s.1.bucket (true, s.1.triedBucket e.addr)).length < BUCKET_SIZE ∨ out.isSome := by
      cases out with
      | none => exact .inl (room.2 rfl)
      | some o => exact .inr rfl
    refine ⟨fun p => bucket p ▸ h.length_moveTo_le demoted hroom, fun p => bucket p ▸ h.nodup_moveTo hin,
      fun p x hx => ?_⟩
    rw [bucket, h.mem_moveTo hin demoted] at hx
    rw [get]
    rcases hx with ⟨rfl, rfl⟩ | ⟨hx, hne, hstays⟩
    · rw [if_pos rfl]
      refine ⟨_, rfl, rfl, ?_⟩
      rw [triedBucket_congr salt]
      rfl
    · obtain ⟨e', he', hbelongs⟩ := h.home p x hx
      rw [if_neg hne, if_neg hstays]
      exact ⟨e', he', hbelongs.congr salt rfl rfl rfl⟩

omit [Crypto] in
theorem bucket_empty (salt : Hash32) (p : Bool × ℕ) : (empty salt).bucket p = [] := by
  obtain ⟨tried, k⟩ := p
  cases tried <;> simp [bucket, table, empty]

theorem placed_empty (salt : Hash32) (source : PeerId → Option AddrGroup) : Placed (empty salt, source) where
  size_le p := by simp [bucket_empty]
  nodup p := by simp [bucket_empty]
  home p id hid := by simp [bucket_empty] at hid

theorem sourced_append (b : AddrBook) (ops : List BookOp) (op : BookOp) :
    b.sourced (ops ++ [op]) = (b.sourced ops).apply op := by
  rw [sourced, List.foldl_append, ← sourced]
  rfl

theorem after_append (b : AddrBook) (ops : List BookOp) (op : BookOp) :
    b.after (ops ++ [op]) = (b.after ops).apply op := by
  rw [after, List.foldl_append, ← after]
  rfl

theorem sourced_fst (b : AddrBook) (ops : List BookOp) : (b.sourced ops).1 = b.after ops := by
  induction ops using List.reverseRecOn with
  | nil => rfl
  | append_singleton ops op ih =>
    rw [sourced_append, after_append, ← ih]
    rfl

theorem sourced_placed (salt : Hash32) (ops : List BookOp) : Placed ((empty salt).sourced ops) := by
  induction ops using List.reverseRecOn with
  | nil => exact placed_empty salt _
  | append_singleton ops op ih =>
    rw [sourced_append]
    exact ih.step (apply_effect ih op)

end

end AddrBook

end AfroLink
