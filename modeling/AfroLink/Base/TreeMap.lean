import Mathlib

/-!
# Ordered maps read as lists

The values of a map in key order, and the pairs that were inserted.
-/

namespace Std.TreeMap

variable {α β : Type} {cmp : α → α → Ordering} {t : TreeMap α β cmp} {v : β} {p : β → Bool}

theorem values_eq_map_snd (t : TreeMap α β cmp) : t.values = t.toList.map (·.2) := by
  have h : t.values = t.foldr (fun _ v acc => v :: acc) [] := rfl
  rw [h, foldr_eq_foldr_toList]
  induction t.toList with
  | nil => rfl
  | cons e l ih => simp [ih]

variable [TransCmp cmp] [LawfulEqCmp cmp]

theorem mem_values : v ∈ t.values ↔ ∃ k : α, t[k]? = some v := by
  rw [values_eq_map_snd, List.mem_map]
  constructor
  · rintro ⟨⟨k, w⟩, hmem, rfl⟩
    exact ⟨k, mem_toList_iff_getElem?_eq_some.1 hmem⟩
  · rintro ⟨k, hk⟩
    exact ⟨(k, v), mem_toList_iff_getElem?_eq_some.2 hk, rfl⟩

theorem find?_values_eq_some :
    t.values.find? p = some v ↔
      ∃ k : α, t[k]? = some v ∧ p v = true ∧ ∀ k' : α, cmp k' k = .lt → ∀ v' : β, t[k']? = some v' → p v' = false := by
  have hord := ordered_keys_toList (t := t)
  have hmem : ∀ (k : α) (w : β), t[k]? = some w ↔ (k, w) ∈ t.toList := fun k w => mem_toList_iff_getElem?_eq_some.symm
  simp only [values_eq_map_snd, hmem, List.find?_map, Option.map_eq_some_iff]
  generalize t.toList = l at hord ⊢
  constructor
  · rintro ⟨⟨k, w⟩, hfind, rfl⟩
    obtain ⟨hp, before, after, rfl, hbefore⟩ := List.find?_eq_some_iff_append.1 hfind
    refine ⟨k, by simp, hp, fun k' hlt v' hv' => ?_⟩
    rcases List.mem_append.1 hv' with hv' | hv'
    · simpa using hbefore _ hv'
    · -- from the found pair on, keys are not below its own
      exfalso
      rcases List.mem_cons.1 hv' with heq | hv'
      · cases heq
        simp [ReflCmp.compare_self] at hlt
      · have hgt := (List.pairwise_cons.1 (List.pairwise_append.1 hord).2.1).1 _ hv'
        exact OrientedCmp.not_lt_of_lt hlt hgt
  · rintro ⟨k, hkv, hp, hfirst⟩
    obtain ⟨before, after, rfl⟩ := List.append_of_mem hkv
    refine ⟨(k, v), List.find?_eq_some_iff_append.2 ⟨hp, before, after, rfl, ?_⟩, rfl⟩
    rintro ⟨k', w⟩ hw
    have hlt := (List.pairwise_append.1 hord).2.2 _ hw _ (List.mem_cons_self ..)
    simpa using hfirst k' hlt w (List.mem_append_left _ hw)

theorem exists_of_getLast?_values (h : t.values.getLast? = some v) :
    ∃ k : α, t[k]? = some v ∧ ∀ k' : α, cmp k k' = .lt → t[k']? = none := by
  have hord := ordered_keys_toList (t := t)
  rw [values_eq_map_snd, List.getLast?_map] at h
  obtain ⟨⟨k, w⟩, hlast, rfl⟩ := Option.map_eq_some_iff.1 h
  obtain ⟨before, hsplit⟩ := List.getLast?_eq_some_iff.1 hlast
  refine ⟨k, mem_toList_iff_getElem?_eq_some.1 (by simp [hsplit]), fun k' hlt => ?_⟩
  by_contra hsome
  obtain ⟨w', hw'⟩ := Option.ne_none_iff_exists'.1 hsome
  have hmem := mem_toList_iff_getElem?_eq_some.2 hw'
  rw [hsplit] at hmem hord
  rcases List.mem_append.1 hmem with hmem | hmem
  · have hgt := (List.pairwise_append.1 hord).2.2 _ hmem _ (List.mem_singleton_self _)
    exact OrientedCmp.not_lt_of_lt hlt hgt
  · cases List.mem_singleton.1 hmem
    simp [ReflCmp.compare_self] at hlt

theorem nodup_keys_toList (t : TreeMap α β cmp) : (t.toList.map Prod.fst).Nodup := by
  refine List.pairwise_map.2 (distinct_keys_toList.imp ?_)
  intro a b hne heq
  rw [heq] at hne
  exact hne ReflCmp.compare_self

theorem nodup_toList (t : TreeMap α β cmp) : t.toList.Nodup := (nodup_keys_toList t).of_map _

theorem perm_toList_insert {k : α} (h : t[k]? = none) : (t.insert k v).toList.Perm ((k, v) :: t.toList) := by
  refine (List.perm_ext_iff_of_nodup (nodup_toList _) (List.nodup_cons.2 ⟨?_, nodup_toList t⟩)).2 ?_
  · intro hmem
    rw [mem_toList_iff_getElem?_eq_some, h] at hmem
    cases hmem
  · rintro ⟨k', v'⟩
    rw [List.mem_cons, mem_toList_iff_getElem?_eq_some, mem_toList_iff_getElem?_eq_some, getElem?_insert]
    by_cases hk : k = k'
    · subst hk
      simp [ReflCmp.compare_self, h, eq_comm]
    · rw [if_neg fun heq => hk (LawfulEqCmp.eq_of_compare heq)]
      simp [Ne.symm hk]

theorem perm_toList_erase {k : α} (h : t[k]? = some v) : t.toList.Perm ((k, v) :: (t.erase k).toList) := by
  refine (List.perm_ext_iff_of_nodup (nodup_toList t) (List.nodup_cons.2 ⟨?_, nodup_toList _⟩)).2 ?_
  · intro hmem
    rw [mem_toList_iff_getElem?_eq_some, getElem?_erase, if_pos ReflCmp.compare_self] at hmem
    cases hmem
  · rintro ⟨k', v'⟩
    rw [List.mem_cons, mem_toList_iff_getElem?_eq_some, mem_toList_iff_getElem?_eq_some, getElem?_erase]
    by_cases hk : k = k'
    · subst hk
      simp [ReflCmp.compare_self, h, eq_comm]
    · rw [if_neg fun heq => hk (LawfulEqCmp.eq_of_compare heq)]
      simp [Ne.symm hk]

omit [TransCmp cmp] [LawfulEqCmp cmp] in
theorem toList_empty : (∅ : TreeMap α β cmp).toList = [] := rfl

theorem mem_toList_foldl_insert {l : List (α × β)} (hl : (l.map Prod.fst).Nodup) {e : α × β} :
    e ∈ (l.foldl (fun t e => t.insert e.1 e.2) t).toList ↔ e ∈ l ∨ e.1 ∉ l.map Prod.fst ∧ e ∈ t.toList := by
  obtain ⟨k, v⟩ := e
  induction l generalizing t with
  | nil => simp
  | cons a l ih =>
    obtain ⟨k', v'⟩ := a
    obtain ⟨hk', hl⟩ := List.nodup_cons.1 hl
    rw [List.foldl_cons, ih hl, mem_toList_iff_getElem?_eq_some, mem_toList_iff_getElem?_eq_some, getElem?_insert,
      List.map_cons]
    simp only [List.mem_cons, Prod.mk.injEq, not_or]
    by_cases hkey : k' = k
    · subst hkey
      have hmem : (k', v) ∉ l := fun he => hk' (List.mem_map.2 ⟨_, he, rfl⟩)
      rw [if_pos ReflCmp.compare_self]
      simp only [Option.some.injEq, eq_comm]
      tauto
    · rw [if_neg fun heq => hkey (LawfulEqCmp.eq_of_compare heq)]
      have := Ne.symm hkey
      tauto

end Std.TreeMap
