import AfroLink.Base.TreeMap

/-!
# Tables of buckets

A map from indices to lists, where an absent list is an empty one: what is in the table, how much of it can be where,
and a walk over all indices from any one of them.
-/

theorem exists_add_mod_eq {n k : ℕ} (hk : k < n) (c : ℕ) : ∃ i < n, (c + i) % n = k := by
  refine ⟨(k + n - c % n) % n, Nat.mod_lt _ (by omega), ?_⟩
  have hc := Nat.mod_lt c (show 0 < n by omega)
  have hsum : c + (k + n - c % n) = k + n * (c / n + 1) := by
    have := Nat.div_add_mod c n
    rw [Nat.mul_add]
    omega
  rw [Nat.add_mod_mod, hsum, Nat.add_mul_mod_self_left, Nat.mod_eq_of_lt hk]

namespace Std.TreeMap

variable {κ α : Type} {cmp : κ → κ → Ordering}

def occupants (t : TreeMap κ (List α) cmp) : List α := t.values.flatten

variable [TransCmp cmp] [LawfulEqCmp cmp] {t : TreeMap κ (List α) cmp}

omit [LawfulEqCmp cmp] in
theorem mem_getD_iff {a : α} {k : κ} : a ∈ t.getD k [] ↔ ∃ slot, t[k]? = some slot ∧ a ∈ slot := by
  rw [getD_eq_getD_getElem?]
  cases t[k]? <;> simp

theorem mem_occupants {a : α} : a ∈ t.occupants ↔ ∃ k, a ∈ t.getD k [] := by
  simp only [occupants, List.mem_flatten, mem_values, mem_getD_iff]
  constructor
  · rintro ⟨slot, ⟨k, hk⟩, ha⟩
    exact ⟨k, slot, hk, ha⟩
  · rintro ⟨k, slot, hk, ha⟩
    exact ⟨slot, ⟨k, hk⟩, ha⟩

theorem length_filter_flatten_le [DecidableEq κ] {p : α → Bool} {c : ℕ} (l : List (κ × List α)) :
    ∀ S : Finset κ, (l.map Prod.fst).Nodup → (∀ e ∈ l, e.2.length ≤ c) →
      (∀ e ∈ l, ∀ a ∈ e.2, p a = true → e.1 ∈ S) → ((l.map Prod.snd).flatten.filter p).length ≤ S.card * c := by
  induction l with
  | nil => simp
  | cons e l ih =>
    intro S hnodup hsize hin
    obtain ⟨hk, hnodup⟩ := List.nodup_cons.1 hnodup
    have hrest : ∀ e' ∈ l, e'.2.length ≤ c := fun e' he' => hsize e' (List.mem_cons_of_mem _ he')
    have hslot : (e.2.filter p).length ≤ c := (List.length_filter_le _ _).trans (hsize e (List.mem_cons_self ..))
    rw [List.map_cons, List.flatten_cons, List.filter_append, List.length_append]
    by_cases hS : e.1 ∈ S
    · have hl := ih (S.erase e.1) hnodup hrest fun e' he' a ha hp =>
        Finset.mem_erase.2 ⟨fun heq => hk (List.mem_map.2 ⟨e', he', heq⟩), hin e' (List.mem_cons_of_mem _ he') a ha hp⟩
      calc (e.2.filter p).length + ((l.map Prod.snd).flatten.filter p).length
          ≤ c + (S.erase e.1).card * c := Nat.add_le_add hslot hl
        _ = S.card * c := by rw [← Finset.card_erase_add_one hS, Nat.add_mul, Nat.one_mul, Nat.add_comm]
    · -- nothing of this bucket counts
      have hnone : e.2.filter p = [] :=
        List.filter_eq_nil_iff.2 fun a ha hp => hS (hin e (List.mem_cons_self ..) a ha hp)
      rw [hnone, List.length_nil, Nat.zero_add]
      exact ih S hnodup hrest fun e' he' => hin e' (List.mem_cons_of_mem _ he')

theorem length_filter_occupants_le [DecidableEq κ] {p : α → Bool} {c : ℕ} {S : Finset κ}
    (hsize : ∀ k, (t.getD k []).length ≤ c) (hin : ∀ k, ∀ a ∈ t.getD k [], p a = true → k ∈ S) :
    (t.occupants.filter p).length ≤ S.card * c := by
  have hslot : ∀ e ∈ t.toList, t.getD e.1 [] = e.2 := fun e he => by
    rw [getD_eq_getD_getElem?, mem_toList_iff_getElem?_eq_some.1 he, Option.getD_some]
  rw [occupants, values_eq_map_snd]
  refine length_filter_flatten_le _ S (nodup_keys_toList t) (fun e he => ?_) (fun e he a ha => ?_)
  · rw [← hslot e he]
    exact hsize e.1
  · rw [← hslot e he] at ha
    exact hin e.1 a ha

theorem length_occupants_le [DecidableEq κ] {c : ℕ} {S : Finset κ}
    (hsize : ∀ k, (t.getD k []).length ≤ c) (hin : ∀ k, ∀ a ∈ t.getD k [], k ∈ S) : t.occupants.length ≤ S.card * c := by
  have h := length_filter_occupants_le (t := t) (p := fun _ => true) hsize fun k a ha _ => hin k a ha
  rwa [List.filter_true] at h

end Std.TreeMap
