import AfroLink.Node.Lemmas.Pool

/-!
# Choosing transactions for a block

The walk over the queue takes, of each sender, the nonces that follow the committed one without a gap, until a block is
full.
-/

namespace AfroLink

namespace Mempool

variable {nextNonce : Address → U64}

def wantOf (nextNonce : Address → U64) (wanted : Option (Address × Option U64)) (sender : Address) : Option U64 :=
  match wanted with
  | some (current, want) => if current = sender then want else some (nextNonce sender)
  | none => some (nextNonce sender)

theorem wantOf_eq_none {wanted : Option (Address × Option U64)} {sender : Address}
    (h : wantOf nextNonce wanted sender = none) : wanted = some (sender, none) := by
  unfold wantOf at h
  split at h
  · split at h
    · rename_i current want heq
      subst heq h
      rfl
    · cases h
  · cases h

def walk (nextNonce : Address → U64) :
    List ((Address × U64) × Transaction) → Option (Address × Option U64) → List Transaction
  | [], _ => []
  | ((sender, nonce), t) :: rest, wanted =>
    match wantOf nextNonce wanted sender with
    | none => walk nextNonce rest wanted
    | some want =>
      if nonce ≠ want then walk nextNonce rest (some (sender, none))
      else t :: walk nextNonce rest (some (sender, some (want.saturatingAdd 1)))

/-- As many transactions from the front as fit into a block with `count` of `bytes` already in it. -/
def takeFitting : List Transaction → (count bytes : ℕ) → List Transaction
  | [], _, _ => []
  | t :: rest, count, bytes =>
    if count ≥ MAX_BLOCK_TRANSACTIONS ∨ bytes + (encode t).length > MAX_BLOCK_BYTES then []
    else t :: takeFitting rest (count + 1) (bytes + (encode t).length)

theorem selectFrom_cons (sender : Address) (nonce : U64) (t : Transaction) (rest : List ((Address × U64) × Transaction))
    (wanted : Option (Address × Option U64)) (count bytes : ℕ) :
    selectFrom nextNonce (((sender, nonce), t) :: rest) wanted count bytes =
      match wantOf nextNonce wanted sender with
      | none => selectFrom nextNonce rest wanted count bytes
      | some want =>
        if nonce ≠ want then selectFrom nextNonce rest (some (sender, none)) count bytes
        else if count ≥ MAX_BLOCK_TRANSACTIONS ∨ bytes + (encode t).length > MAX_BLOCK_BYTES then []
        else t :: selectFrom nextNonce rest (some (sender, some (want.saturatingAdd 1))) (count + 1)
          (bytes + (encode t).length) := rfl

theorem selectFrom_eq (l : List ((Address × U64) × Transaction)) (wanted : Option (Address × Option U64))
    (count bytes : ℕ) : selectFrom nextNonce l wanted count bytes = takeFitting (walk nextNonce l wanted) count bytes := by
  induction l generalizing wanted count bytes with
  | nil => rfl
  | cons e rest ih =>
    obtain ⟨⟨sender, nonce⟩, t⟩ := e
    rw [selectFrom_cons, walk]
    cases wantOf nextNonce wanted sender with
    | none => exact ih ..
    | some want =>
      by_cases hnonce : nonce = want
      · simp only [ne_eq, hnonce, not_true_eq_false, if_false, ih]
        rfl
      · simp only [ne_eq, hnonce, not_false_eq_true, if_true, ih]

def blockBytes (ts : List Transaction) : ℕ := (ts.map fun t => (encode t).length).sum

theorem takeFitting_prefix (ts : List Transaction) (count bytes : ℕ) : takeFitting ts count bytes <+: ts := by
  induction ts generalizing count bytes with
  | nil => exact List.prefix_rfl
  | cons t rest ih =>
    unfold takeFitting
    split
    · exact List.nil_prefix
    · exact List.cons_prefix_cons.2 ⟨rfl, ih ..⟩

theorem takeFitting_fits (ts : List Transaction) {count bytes : ℕ} (hcount : count ≤ MAX_BLOCK_TRANSACTIONS)
    (hbytes : bytes ≤ MAX_BLOCK_BYTES) : count + (takeFitting ts count bytes).length ≤ MAX_BLOCK_TRANSACTIONS ∧
      bytes + blockBytes (takeFitting ts count bytes) ≤ MAX_BLOCK_BYTES := by
  induction ts generalizing count bytes with
  | nil => exact ⟨hcount, hbytes⟩
  | cons t rest ih =>
    unfold takeFitting
    split
    · exact ⟨hcount, hbytes⟩
    · rename_i hroom
      rw [not_or, not_le, not_lt] at hroom
      have hcount' : count + 1 ≤ MAX_BLOCK_TRANSACTIONS := hroom.1
      have hrest := ih hcount' hroom.2
      rw [List.length_cons, blockBytes, List.map_cons, List.sum_cons]
      rw [blockBytes] at hrest
      omega

theorem takeFitting_of_fits {ts : List Transaction} {count bytes : ℕ}
    (hcount : count + ts.length ≤ MAX_BLOCK_TRANSACTIONS) (hbytes : bytes + blockBytes ts ≤ MAX_BLOCK_BYTES) :
    takeFitting ts count bytes = ts := by
  induction ts generalizing count bytes with
  | nil => rfl
  | cons t rest ih =>
    rw [List.length_cons] at hcount
    rw [blockBytes, List.map_cons, List.sum_cons] at hbytes
    rw [takeFitting, if_neg (by omega), ih (by omega) (by rw [blockBytes]; omega)]

theorem bytesWithin_of_fits {ts : List Transaction} {bytes : ℕ} (hbytes : bytes + blockBytes ts ≤ MAX_BLOCK_BYTES) :
    bytesWithin ts bytes = true := by
  induction ts generalizing bytes with
  | nil => rfl
  | cons t rest ih =>
    rw [blockBytes, List.map_cons, List.sum_cons] at hbytes
    rw [bytesWithin, if_neg (by omega)]
    exact ih (by rw [blockBytes]; omega)

/-! ## What the walk takes -/

section

variable {l seen rest : List ((Address × U64) × Transaction)} {sender : Address} {nonce : U64} {t : Transaction}
  {want : Option U64} {wanted : Option (Address × Option U64)}

abbrev queueKeys (l : List ((Address × U64) × Transaction)) : List (Address × U64) := l.map (·.1)

/-- The nonce can be reached from the committed one: nothing of the sender is behind that, and nothing is missing up to
the nonce. -/
def Reaches (nextNonce : Address → U64) (keys : List (Address × U64)) (sender : Address) (nonce : U64) : Prop :=
  (∀ n, (sender, n) ∈ keys → nextNonce sender ≤ n) ∧
    ∀ n, nextNonce sender ≤ n → n < nonce → (sender, n) ∈ keys

/-- What is awaited after the nonces seen of a sender. The awaited nonce is the first that is missing; there is none
where one of the nonces seen cannot be reached. -/
def Awaits (nextNonce : Address → U64) (keys : List (Address × U64)) (sender : Address) : Option U64 → Prop
  | some v => ∃ k : ℕ, v.val = min k (2 ^ 64 - 1) ∧ (nextNonce sender).val ≤ k ∧
      ∀ n : U64, (sender, n) ∈ keys ↔ nextNonce sender ≤ n ∧ n.val < k
  | none => ∃ n, (sender, n) ∈ keys ∧ (n < nextNonce sender ∨ ∃ gap, nextNonce sender ≤ gap ∧ gap < n ∧ (sender, gap) ∉ keys)

variable {keys : List (Address × U64)}

theorem Awaits.fresh (h : ∀ n, (sender, n) ∉ keys) : Awaits nextNonce keys sender (some (nextNonce sender)) := by
  refine ⟨(nextNonce sender).val, ?_, le_refl _, fun n => ?_⟩
  · have := (nextNonce sender).isLt
    omega
  · have := h n
    simp only [this, false_iff, not_and, Nat.not_lt]
    exact fun hle => hle

theorem Awaits.eq_iff (h : Awaits nextNonce keys sender want) (hlater : ∀ n, (sender, n) ∈ keys → n < nonce) :
    want = some nonce ↔ nextNonce sender ≤ nonce ∧ Reaches nextNonce keys sender nonce := by
  cases want with
  | none =>
    obtain ⟨n, hn, hbad⟩ := h
    refine ⟨nofun, fun ⟨_, hbehind, hall⟩ => ?_⟩
    rcases hbad with hlow | ⟨gap, hge, hlt, hmissing⟩
    · exact absurd (hbehind n hn) hlow.not_ge
    · exact absurd (hall gap hge (hlt.trans (hlater n hn))) hmissing
  | some v =>
    obtain ⟨k, hv, hk, hkeys⟩ := h
    rw [Option.some.injEq]
    constructor
    · rintro rfl
      have hlt := v.isLt
      refine ⟨Fin.le_def.2 ?_, fun n hn => ((hkeys n).1 hn).1, fun n hge hn => (hkeys n).2 ⟨hge, ?_⟩⟩
      · have := (nextNonce sender).isLt
        omega
      · have := Fin.lt_def.1 hn
        omega
    · rintro ⟨hge, -, hall⟩
      have hnot : ¬ nonce.val < k := fun hlt => lt_irrefl _ (hlater nonce ((hkeys nonce).2 ⟨hge, hlt⟩))
      have hle : ¬ k < nonce.val := fun hlt => by
        have hmem := hall ⟨k, hlt.trans nonce.isLt⟩ (Fin.le_def.2 hk) (Fin.lt_def.2 hlt)
        exact lt_irrefl _ ((hkeys _).1 hmem).2
      have := nonce.isLt
      exact Fin.ext (by omega)

theorem Awaits.taken (h : Awaits nextNonce keys sender (some nonce)) (hlater : ∀ n, (sender, n) ∈ keys → n < nonce) :
    Awaits nextNonce (keys ++ [(sender, nonce)]) sender (some (nonce.saturatingAdd 1)) := by
  obtain ⟨hge, hbehind, hall⟩ := (h.eq_iff hlater).1 rfl
  have hone : (1 : U64).val = 1 := rfl
  refine ⟨nonce.val + 1, ?_, (Fin.le_def.1 hge).trans (Nat.le_succ _), fun n => ?_⟩
  · rw [Fin.saturatingAdd_val, hone]
  · rw [List.mem_append, List.mem_singleton, Prod.mk.injEq, Nat.lt_succ_iff_lt_or_eq]
    constructor
    · rintro (hn | ⟨-, rfl⟩)
      · exact ⟨hbehind n hn, .inl (hlater n hn)⟩
      · exact ⟨hge, .inr rfl⟩
    · rintro ⟨hle, hn | hn⟩
      · exact .inl (hall n hle hn)
      · exact .inr ⟨rfl, Fin.ext hn⟩

theorem Awaits.missed (h : Awaits nextNonce keys sender want)
    (hlater : ∀ n, (sender, n) ∈ keys → n < nonce) (hne : want ≠ some nonce) :
    Awaits nextNonce (keys ++ [(sender, nonce)]) sender none := by
  have hkept : ∀ gap, gap < nonce → (sender, gap) ∉ keys → (sender, gap) ∉ keys ++ [(sender, nonce)] := by
    intro gap hlt hnot hmem
    rcases List.mem_append.1 hmem with hmem | hmem
    · exact hnot hmem
    · cases List.mem_singleton.1 hmem
      exact lt_irrefl _ hlt
  have hlast : (sender, nonce) ∈ keys ++ [(sender, nonce)] := List.mem_append_right _ (List.mem_singleton_self _)
  rw [ne_eq, h.eq_iff hlater, not_and_or, not_le] at hne
  rcases hne with hlow | hreach
  · exact ⟨nonce, hlast, .inl hlow⟩
  · rw [Reaches, not_and_or] at hreach
    push Not at hreach
    rcases hreach with ⟨n, hn, hlow⟩ | ⟨gap, hge, hlt, hmissing⟩
    · exact ⟨n, List.mem_append_left _ hn, .inl hlow⟩
    · exact ⟨nonce, hlast, .inr ⟨gap, hge, hlt, hkept gap hlt hmissing⟩⟩

def KeyLt (a b : Address × U64) : Prop := a.1 < b.1 ∨ a.1 = b.1 ∧ a.2 < b.2

theorem compare_key_eq_lt {a b : Address × U64} : compare a b = .lt ↔ KeyLt a b := by
  have hlex : compare a b = (compare a.1 b.1).then (compare a.2 b.2) := rfl
  rw [hlex, Ordering.then_eq_lt, compare_lt_iff_lt, compare_lt_iff_lt, compare_eq_iff_eq, KeyLt]

def Waits (nextNonce : Address → U64) (keys : List (Address × U64)) : Option (Address × Option U64) → Prop
  | none => keys = []
  | some (current, want) => (∃ n before, keys = before ++ [(current, n)]) ∧ Awaits nextNonce keys current want

theorem Waits.wantOf (h : Waits nextNonce keys wanted) (hsorted : (keys ++ [(sender, nonce)]).Pairwise KeyLt) :
    Awaits nextNonce keys sender (wantOf nextNonce wanted sender) := by
  cases wanted with
  | none =>
    cases h
    exact .fresh fun _ => List.not_mem_nil
  | some w =>
    obtain ⟨current, want⟩ := w
    obtain ⟨⟨n, before, rfl⟩, hawaits⟩ := h
    unfold Mempool.wantOf
    dsimp only
    split
    · rename_i heq
      subst heq
      exact hawaits
    · rename_i hne
      -- what the sender has is all in one place
      refine .fresh fun n' hn' => ?_
      rw [List.append_assoc, List.pairwise_append] at hsorted
      obtain ⟨-, hlast, hbefore⟩ := hsorted
      have hlt : KeyLt (current, n) (sender, nonce) := by
        simpa using (List.pairwise_cons.1 hlast).1 (sender, nonce)
      rcases List.mem_append.1 hn' with hmem | hmem
      · have hlt' : KeyLt (sender, n') (current, n) := hbefore _ hmem _ (List.mem_cons_self ..)
        have hafter : current < sender := hlt.resolve_right fun heq => hne heq.1
        have hfirst : sender < current := hlt'.resolve_right fun heq => hne heq.1.symm
        exact lt_asymm hafter hfirst
      · cases List.mem_singleton.1 hmem
        exact hne rfl

theorem reaches_append_iff {later : List (Address × U64)}
    (hsorted : (keys ++ (sender, nonce) :: later).Pairwise KeyLt) :
    nextNonce sender ≤ nonce ∧ Reaches nextNonce keys sender nonce ↔
      Reaches nextNonce (keys ++ (sender, nonce) :: later) sender nonce := by
  rw [List.pairwise_append] at hsorted
  obtain ⟨-, htail, -⟩ := hsorted
  have hafter : ∀ n, (sender, n) ∈ later → nonce < n := fun n hn => by
    rcases (List.pairwise_cons.1 htail).1 _ hn with hlt | ⟨-, hlt⟩
    · exact absurd hlt (lt_irrefl _)
    · exact hlt
  unfold Reaches
  simp only [List.mem_append, List.mem_cons, Prod.mk.injEq, true_and]
  constructor
  · rintro ⟨hge, hbehind, hall⟩
    refine ⟨fun n hn => ?_, fun n hle hlt => .inl (hall n hle hlt)⟩
    rcases hn with hn | rfl | hn
    · exact hbehind n hn
    · exact hge
    · exact hge.trans (hafter n hn).le
  · rintro ⟨hbehind, hall⟩
    refine ⟨hbehind nonce (.inr (.inl rfl)), fun n hn => hbehind n (.inl hn), fun n hle hlt => ?_⟩
    rcases hall n hle hlt with hn | rfl | hn
    · exact hn
    · exact absurd hlt (lt_irrefl _)
    · exact absurd hlt (hafter n hn).not_gt

open Classical in
theorem walk_eq (seen rest : List ((Address × U64) × Transaction))
    (hsorted : (queueKeys seen ++ queueKeys rest).Pairwise KeyLt) (hwaits : Waits nextNonce (queueKeys seen) wanted) :
    walk nextNonce rest wanted = (rest.filter fun e =>
      Reaches nextNonce (queueKeys seen ++ queueKeys rest) e.1.1 e.1.2).map (·.2) := by
  induction rest generalizing seen wanted with
  | nil => rfl
  | cons e rest ih =>
    obtain ⟨⟨sender, nonce⟩, t⟩ := e
    have hkeys : queueKeys seen ++ queueKeys (((sender, nonce), t) :: rest) =
        queueKeys (seen ++ [((sender, nonce), t)]) ++ queueKeys rest := by simp
    have hseen : queueKeys (seen ++ [((sender, nonce), t)]) = queueKeys seen ++ [(sender, nonce)] := by simp
    have hfirst : (queueKeys seen ++ [(sender, nonce)]).Pairwise KeyLt := by
      rw [hkeys, hseen] at hsorted
      exact (List.pairwise_append.1 hsorted).1
    have hlater : ∀ n, (sender, n) ∈ queueKeys seen → n < nonce := fun n hn => by
      rcases (List.pairwise_append.1 hfirst).2.2 _ hn _ (List.mem_singleton_self _) with hlt | ⟨-, hlt⟩
      · exact absurd hlt (lt_irrefl _)
      · exact hlt
    have hawaits := hwaits.wantOf hfirst
    have htaken := (hawaits.eq_iff hlater).trans (reaches_append_iff hsorted)
    have hrest : ∀ wanted', Waits nextNonce (queueKeys seen ++ [(sender, nonce)]) wanted' →
        walk nextNonce rest wanted' = (rest.filter fun e => Reaches nextNonce
          (queueKeys seen ++ queueKeys (((sender, nonce), t) :: rest)) e.1.1 e.1.2).map (·.2) := by
      intro wanted' hwaits'
      rw [hkeys]
      exact ih _ (hkeys ▸ hsorted) (hseen ▸ hwaits')
    rw [walk, List.filter_cons]
    cases hwant : wantOf nextNonce wanted sender with
    | none =>
      rw [hwant] at hawaits htaken
      rw [if_neg (by simpa using htaken.not.1 nofun)]
      obtain rfl : wanted = some (sender, none) := wantOf_eq_none hwant
      exact hrest _ ⟨⟨nonce, queueKeys seen, rfl⟩, hawaits.missed hlater nofun⟩
    | some want =>
      rw [hwant] at hawaits htaken
      by_cases hnonce : nonce = want
      · subst hnonce
        rw [if_pos (by simpa using htaken.1 rfl)]
        simp only [ne_eq, not_true_eq_false, if_false, List.map_cons]
        refine congrArg (t :: ·) (hrest (some (sender, some (nonce.saturatingAdd 1))) ⟨?_, hawaits.taken hlater⟩)
        exact ⟨nonce, queueKeys seen, rfl⟩
      · have hne : some want ≠ some nonce := fun heq => hnonce (Option.some.inj heq).symm
        rw [if_neg (by simpa using htaken.not.1 hne)]
        simp only [ne_eq, hnonce, not_false_eq_true, if_true]
        exact hrest _ ⟨⟨nonce, queueKeys seen, rfl⟩, hawaits.missed hlater hne⟩

end

theorem eq_range'_of_closed {l : List ℕ} {a : ℕ} (hsorted : l.Pairwise (· < ·)) (hge : ∀ n ∈ l, a ≤ n)
    (hclosed : ∀ n ∈ l, ∀ k, a ≤ k → k < n → k ∈ l) : l = List.range' a l.length := by
  induction l generalizing a with
  | nil => rfl
  | cons x rest ih =>
    obtain ⟨hx, hrest⟩ := List.pairwise_cons.1 hsorted
    obtain rfl : x = a := by
      by_contra hne
      have hlt : a < x := lt_of_le_of_ne (hge x (.head _)) (Ne.symm hne)
      rcases List.mem_cons.1 (hclosed x (.head _) a (le_refl a) hlt) with heq | hmem
      · exact hne heq.symm
      · exact absurd (hx a hmem) hlt.not_gt
    rw [List.length_cons, List.range'_succ]
    refine congrArg (x :: ·) (ih hrest (fun n hn => hx n hn) fun n hn k hk hlt => ?_)
    rcases List.mem_cons.1 (hclosed n (.tail _ hn) k (Nat.le_of_succ_le hk) hlt) with rfl | hmem
    · exact absurd hk (Nat.not_succ_le_self k)
    · exact hmem

def stopsFrom (nextNonce : Address → U64) :
    List ((Address × U64) × Transaction) → (wanted : Option (Address × Option U64)) → (count bytes : ℕ) → Bool
  | [], _, _, _ => false
  | ((sender, nonce), t) :: rest, wanted, count, bytes =>
    match wantOf nextNonce wanted sender with
    | none => stopsFrom nextNonce rest wanted count bytes
    | some want =>
      if nonce ≠ want then stopsFrom nextNonce rest (some (sender, none)) count bytes
      else
        let size := (encode t).length
        if count ≥ MAX_BLOCK_TRANSACTIONS ∨ bytes + size > MAX_BLOCK_BYTES then true
        else stopsFrom nextNonce rest (some (sender, some (want.saturatingAdd 1))) (count + 1) (bytes + size)

theorem stopsFrom_eq_false_iff (l : List ((Address × U64) × Transaction)) (wanted : Option (Address × Option U64))
    (count bytes : ℕ) : stopsFrom nextNonce l wanted count bytes = false ↔
      takeFitting (walk nextNonce l wanted) count bytes = walk nextNonce l wanted := by
  induction l generalizing wanted count bytes with
  | nil => exact ⟨fun _ => rfl, fun _ => rfl⟩
  | cons e rest ih =>
    obtain ⟨⟨sender, nonce⟩, t⟩ := e
    rw [stopsFrom, walk]
    cases wantOf nextNonce wanted sender with
    | none => exact ih ..
    | some want =>
      by_cases hnonce : nonce = want
      · simp only [ne_eq, hnonce, not_true_eq_false, if_false, takeFitting]
        split
        · simp
        · rw [List.cons.injEq, ih]
          simp
      · simp only [ne_eq, hnonce, not_false_eq_true, if_true, ih]

variable {m : Mempool} {t : Transaction}

def selectStops (m : Mempool) (nextNonce : Address → U64) : Bool := stopsFrom nextNonce m.byKey.toList none 0 0

theorem sorted_keys (m : Mempool) : (queueKeys m.byKey.toList).Pairwise KeyLt :=
  List.pairwise_map.2 (Std.TreeMap.ordered_keys_toList.imp compare_key_eq_lt.1)

open Classical in
/-- The pending transactions that can be reached, in the order of the queue. -/
noncomputable def reachable (m : Mempool) (nextNonce : Address → U64) : List Transaction :=
  (m.byKey.toList.filter fun e => Reaches nextNonce (queueKeys m.byKey.toList) e.1.1 e.1.2).map (·.2)

theorem walk_toList (m : Mempool) (nextNonce : Address → U64) :
    walk nextNonce m.byKey.toList none = m.reachable nextNonce :=
  walk_eq [] m.byKey.toList (sorted_keys m) rfl

theorem select_eq (m : Mempool) (nextNonce : Address → U64) :
    m.select nextNonce = takeFitting (m.reachable nextNonce) 0 0 := by
  rw [select, selectFrom_eq, walk_toList]

def BlockFits (ts : List Transaction) : Prop := ts.length ≤ MAX_BLOCK_TRANSACTIONS ∧ blockBytes ts ≤ MAX_BLOCK_BYTES

theorem select_fits (m : Mempool) (nextNonce : Address → U64) : BlockFits (m.select nextNonce) := by
  have hfits := takeFitting_fits (m.reachable nextNonce) (Nat.zero_le _) (Nat.zero_le _)
  rw [← select_eq, Nat.zero_add, Nat.zero_add] at hfits
  exact hfits

theorem selectStops_eq_false_iff (m : Mempool) (nextNonce : Address → U64) :
    (m.selectStops nextNonce = false ↔ m.select nextNonce = m.reachable nextNonce) ∧
      (m.selectStops nextNonce = false ↔ BlockFits (m.reachable nextNonce)) := by
  have hstops : m.selectStops nextNonce = false ↔ m.select nextNonce = m.reachable nextNonce := by
    rw [selectStops, stopsFrom_eq_false_iff, walk_toList, select_eq]
  refine ⟨hstops, hstops.trans ⟨fun heq => heq ▸ select_fits m nextNonce, fun hfits => ?_⟩⟩
  rw [select_eq]
  exact takeFitting_of_fits ((Nat.zero_add _).trans_le hfits.1) ((Nat.zero_add _).trans_le hfits.2)

theorem mem_queueKeys {key : Address × U64} : key ∈ queueKeys m.byKey.toList ↔ key ∈ m.byKey := by
  rw [List.mem_map]
  constructor
  · rintro ⟨⟨k, t⟩, hmem, rfl⟩
    rw [Std.TreeMap.mem_toList_iff_getElem?_eq_some] at hmem
    exact Std.TreeMap.mem_iff_isSome_getElem?.2 (by simp [hmem])
  · intro hmem
    obtain ⟨t, ht⟩ := Option.isSome_iff_exists.1 (Std.TreeMap.mem_iff_isSome_getElem?.1 hmem)
    exact ⟨(key, t), Std.TreeMap.mem_toList_iff_getElem?_eq_some.2 ht, rfl⟩

section

variable [Crypto]

open Classical in
theorem mem_reachable_iff (hm : m.Consistent) : t ∈ m.reachable nextNonce ↔
    m.Holds t ∧ Reaches nextNonce (queueKeys m.byKey.toList) t.body.sender t.body.nonce := by
  unfold reachable
  rw [List.mem_map]
  constructor
  · rintro ⟨⟨key, t⟩, hmem, rfl⟩
    obtain ⟨hmem, hreach⟩ := List.mem_filter.1 hmem
    rw [Std.TreeMap.mem_toList_iff_getElem?_eq_some] at hmem
    obtain rfl := hm.keyed key t hmem
    exact ⟨hmem, of_decide_eq_true hreach⟩
  · rintro ⟨hheld, hreach⟩
    exact ⟨(t.key, t), List.mem_filter.2 ⟨Std.TreeMap.mem_toList_iff_getElem?_eq_some.2 hheld, decide_eq_true hreach⟩, rfl⟩

theorem reachable_sorted (hm : m.Consistent) :
    (m.reachable nextNonce).Pairwise fun t u => KeyLt t.key u.key := by
  unfold reachable
  rw [List.pairwise_map]
  refine ((List.pairwise_map.1 (sorted_keys m)).filter _).imp_of_mem ?_
  rintro ⟨k, t⟩ ⟨k', u⟩ ht hu hlt
  have ht := Std.TreeMap.mem_toList_iff_getElem?_eq_some.1 (List.mem_filter.1 ht).1
  have hu := Std.TreeMap.mem_toList_iff_getElem?_eq_some.1 (List.mem_filter.1 hu).1
  rw [hm.keyed k t ht, hm.keyed k' u hu]
  exact hlt

theorem reachable_run (hm : m.Consistent) (a : Address) :
    ((m.reachable nextNonce).filter (·.body.sender == a)).map (·.body.nonce.val) =
      List.range' (nextNonce a).val ((m.reachable nextNonce).filter (·.body.sender == a)).length := by
  have hmem : ∀ t ∈ (m.reachable nextNonce).filter (·.body.sender == a), t.body.sender = a ∧ m.Holds t ∧
      Reaches nextNonce (queueKeys m.byKey.toList) a t.body.nonce := fun t ht => by
    obtain ⟨ht, ha⟩ := List.mem_filter.1 ht
    obtain ⟨hheld, hreach⟩ := (mem_reachable_iff hm).1 ht
    obtain rfl := beq_iff_eq.1 ha
    exact ⟨rfl, hheld, hreach⟩
  have hrun := eq_range'_of_closed (l := ((m.reachable nextNonce).filter (·.body.sender == a)).map (·.body.nonce.val))
    (a := (nextNonce a).val) ?_ ?_ ?_
  · rwa [List.length_map] at hrun
  · rw [List.pairwise_map]
    refine ((reachable_sorted hm).filter _).imp_of_mem ?_
    intro t u ht hu hlt
    rcases hlt with hlt | ⟨-, hlt⟩
    · have hsender : t.body.sender < u.body.sender := hlt
      rw [(hmem t ht).1, (hmem u hu).1] at hsender
      exact absurd hsender (lt_irrefl _)
    · exact hlt
  · intro n hn
    obtain ⟨t, ht, rfl⟩ := List.mem_map.1 hn
    obtain ⟨rfl, hheld, hreach⟩ := hmem t ht
    exact hreach.1 _ (mem_queueKeys.2 (Std.TreeMap.mem_iff_isSome_getElem?.2 (Option.isSome_of_eq_some hheld)))
  · intro n hn k hge hlt
    obtain ⟨t, ht, rfl⟩ := List.mem_map.1 hn
    obtain ⟨rfl, hheld, hbehind, hall⟩ := hmem t ht
    -- the earlier nonce is pending, and can be reached as this one can
    have hk : k < 2 ^ 64 := hlt.trans t.body.nonce.isLt
    obtain ⟨u, hu⟩ := Option.isSome_iff_exists.1 (Std.TreeMap.mem_iff_isSome_getElem?.1
      (mem_queueKeys.1 (hall ⟨k, hk⟩ (Fin.le_def.2 hge) (Fin.lt_def.2 hlt))))
    have hkey := hm.keyed _ u hu
    obtain ⟨hsender, hnonce⟩ := Prod.mk.inj hkey
    refine List.mem_map.2 ⟨u, List.mem_filter.2 ⟨(mem_reachable_iff hm).2 ⟨?_, ?_, ?_⟩, beq_iff_eq.2 hsender⟩, ?_⟩
    · rw [Holds, hkey]
      exact hu
    · rw [hsender]
      exact hbehind
    · rw [hsender, hnonce]
      exact fun n hle hn => hall n hle (hn.trans hlt)
    · rw [hnonce]

end

end Mempool

end AfroLink
