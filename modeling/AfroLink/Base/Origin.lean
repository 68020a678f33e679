import Mathlib

/-!
# Origins

A queue whose items each stem from an entry of a record. Entries are added with the items they make, items may change
as long as they still fit their entry, and an item that leaves the queue uses its entry up.
-/

variable {α β : Type} {R : α → β → Prop}

/-- The items of the queue stem from different entries, none of which is used up. -/
def Stems (R : α → β → Prop) (queue : List α) (made used : List β) : Prop :=
  ∃ l : List (α × β), queue = l.map Prod.fst ∧ (∀ p ∈ l, R p.1 p.2) ∧ (used ++ l.map Prod.snd).Perm made

namespace Stems

variable {queue : List α} {made used : List β}

theorem nil : Stems R [] [] [] := ⟨[], rfl, nofun, .refl _⟩

theorem push {a : α} {b : β} (h : Stems R queue made used) (hab : R a b) : Stems R (queue ++ [a]) (made ++ [b]) used := by
  obtain ⟨l, rfl, hl, hperm⟩ := h
  refine ⟨l ++ [(a, b)], by simp, ?_, ?_⟩
  · intro p hp
    rcases List.mem_append.1 hp with hp | hp
    · exact hl p hp
    · rw [List.mem_singleton.1 hp]
      exact hab
  · rw [List.map_append, ← List.append_assoc]
    exact hperm.append_right _

theorem map {f : α → α} (h : Stems R queue made used) (hf : ∀ a b, R a b → R (f a) b) :
    Stems R (queue.map f) made used := by
  obtain ⟨l, rfl, hl, hperm⟩ := h
  refine ⟨l.map fun p => (f p.1, p.2), by simp, ?_, ?_⟩
  · intro p hp
    obtain ⟨q, hq, rfl⟩ := List.mem_map.1 hp
    exact hf q.1 q.2 (hl q hq)
  · rw [List.map_map]
    exact hperm

theorem take (h : Stems R queue made used) (leave : α → Bool) :
    ∃ taken, Stems R (queue.filter fun a => !leave a) made (used ++ taken) ∧
      List.Forall₂ R (queue.filter leave) taken := by
  obtain ⟨l, rfl, hl, hperm⟩ := h
  refine ⟨(l.filter fun p => leave p.1).map Prod.snd, ⟨l.filter fun p => !leave p.1, ?_, ?_, ?_⟩, ?_⟩
  · rw [List.filter_map]
    rfl
  · exact fun p hp => hl p (List.mem_of_mem_filter hp)
  · have hsplit := (List.filter_append_perm (fun p : α × β => leave p.1) l).map Prod.snd
    rw [List.append_assoc, ← List.map_append]
    exact (hsplit.append_left used).trans hperm
  · rw [List.filter_map, List.forall₂_map_left_iff, List.forall₂_map_right_iff]
    refine List.forall₂_same.2 fun p hp => ?_
    exact hl p (List.mem_of_mem_filter hp)

theorem subperm (h : Stems R queue made used) : used.Subperm made := by
  obtain ⟨l, -, -, hperm⟩ := h
  exact (List.sublist_append_left used _).subperm.trans hperm.subperm

end Stems
