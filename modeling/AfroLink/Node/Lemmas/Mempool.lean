import AfroLink.Executor.Lemmas.Genesis
import AfroLink.Node.Lemmas.Blocks

/-!
# What leaves the mempool

A height is retired by forgetting the keys written in its block and then what has expired, so that a transaction is
gone exactly if one of the two names it.
-/

open Std

namespace AfroLink

namespace Transaction

def key (t : Transaction) : Address × U64 := (t.body.sender, t.body.nonce)

end Transaction

instance : TransOrd (Address × U64) := inferInstanceAs (TransCmp (compareLex (compareOn Prod.fst) (compareOn Prod.snd)))

instance : LawfulEqOrd (Address × U64) where
  eq_of_compare {a b} h := by
    obtain ⟨hfst, hsnd⟩ := Ordering.then_eq_eq.1 (h : (compare a.1 b.1).then (compare a.2 b.2) = .eq)
    exact Prod.ext (LawfulEqCmp.eq_of_compare hfst) (LawfulEqCmp.eq_of_compare hsnd)

namespace Mempool

variable {m : Mempool} {t : Transaction}

/-- The transaction is pending, under its sender and nonce. -/
def Holds (m : Mempool) (t : Transaction) : Prop := m.byKey[t.key]? = some t

instance (m : Mempool) (t : Transaction) : Decidable (m.Holds t) := inferInstanceAs (Decidable (_ = _))

variable [Crypto]

theorem removeKey_byKey (m : Mempool) (key key' : Address × U64) :
    (m.removeKey key).byKey[key']? = if key = key' then none else m.byKey[key']? := by
  unfold removeKey
  cases hget : m.byKey[key]? with
  | none =>
    by_cases hkey : key = key'
    · rw [if_pos hkey, ← hkey]
      exact hget
    · rw [if_neg hkey]
  | some t =>
    simp only [TreeMap.getElem?_erase, Std.compare_eq_iff_eq]

theorem foldl_removeKey_byKey (keys : List (Address × U64)) (m : Mempool) (key : Address × U64) :
    (keys.foldl removeKey m).byKey[key]? = if key ∈ keys then none else m.byKey[key]? := by
  induction keys generalizing m with
  | nil => simp
  | cons k rest ih =>
    rw [List.foldl_cons, ih, removeKey_byKey]
    by_cases hk : k = key
    · simp [hk]
    · simp [hk, Ne.symm hk]

theorem removeCommitted_byKey (m : Mempool) (ts : List Transaction) (key : Address × U64) :
    (m.removeCommitted ts).byKey[key]? = if key ∈ ts.map Transaction.key then none else m.byKey[key]? := by
  rw [← foldl_removeKey_byKey, List.foldl_map]
  rfl

theorem evictExpired_holds_iff {height : Height} :
    (m.evictExpired height).Holds t ↔ m.Holds t ∧ height ≤ t.body.validUntil := by
  unfold Holds evictExpired
  rw [foldl_removeKey_byKey]
  have hstale : t.key ∈ (m.byKey.toList.filter fun e => height > e.2.body.validUntil).map (·.1) ↔
      ∃ u, m.byKey[t.key]? = some u ∧ u.body.validUntil < height := by
    simp only [List.mem_map, List.mem_filter, Prod.exists, exists_and_right, exists_eq_right,
      TreeMap.mem_toList_iff_getElem?_eq_some, decide_eq_true_eq, gt_iff_lt]
  split
  · rename_i hmem
    obtain ⟨u, hu, hexpired⟩ := hstale.1 hmem
    rw [hu]
    simp only [reduceCtorEq, Option.some.injEq, false_iff, not_and]
    rintro rfl
    exact hexpired.not_ge
  · rename_i hmem
    refine ⟨fun hget => ⟨hget, le_of_not_gt fun hlt => hmem (hstale.2 ⟨t, hget, hlt⟩)⟩, And.left⟩

end Mempool

namespace Node

variable [Crypto] [StateRoot] {n : Node} {block : Block} {commit : Commit}

theorem retired_holds_iff {t : Transaction} :
    (n.retired block commit).mempool.Holds t ↔
      n.mempool.Holds t ∧ t.key ∉ block.transactions.map Transaction.key ∧ n.height.next ≤ t.body.validUntil := by
  have hmempool : (n.retired block commit).mempool =
      (n.mempool.removeCommitted block.transactions).evictExpired n.height.next := rfl
  rw [hmempool, Mempool.evictExpired_holds_iff, Mempool.Holds, Mempool.removeCommitted_byKey]
  split
  · simp_all
  · simp_all [Mempool.Holds]

theorem retired_of_advance {n' : Node}
    (h : (∃ blockId, n.commit blockId = (n', [.committed block commit])) ∨
      n.applySynced block commit = (n', .ok [.committed block commit])) : n' = n.retired block commit := by
  rcases h with ⟨blockId, h⟩ | h
  · cases hfor : n.proposalFor blockId with
    | none =>
      rw [commit_of_missing hfor] at h
      cases h
    | some signed =>
      rw [commit_of_stored hfor] at h
      cases h
      rfl
  · have hok : (n.applySynced block commit).2 = .ok [.committed block commit] := by rw [h]
    rw [applySynced_of_certified (applySynced_ok hok).1 (applySynced_ok hok).2] at h
    cases h
    rfl

end Node

end AfroLink
