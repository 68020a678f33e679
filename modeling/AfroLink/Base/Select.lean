import Mathlib

/-!
# The last of the greatest

What `Iterator::max_by_key` picks: of the elements with the greatest key, the one met last.
-/

namespace List

variable {α : Type}

/-- The last element that no later one and no earlier one exceeds; `le` compares by key. -/
def lastMaxBy (le : α → α → Bool) (l : List α) : Option α :=
  l.foldl (fun best a => match best with
    | none => some a
    | some b => if le b a then some a else some b) none

variable {le : α → α → Bool} {a : α} {l : List α}

theorem lastMaxBy_append_singleton :
    (l ++ [a]).lastMaxBy le = match l.lastMaxBy le with
      | none => some a
      | some b => if le b a then some a else some b := by
  rw [lastMaxBy, foldl_append, foldl_cons, foldl_nil, ← lastMaxBy]

theorem mem_of_lastMaxBy (h : l.lastMaxBy le = some a) : a ∈ l := by
  induction l using reverseRecOn generalizing a with
  | nil => cases h
  | append_singleton l x ih =>
    rw [lastMaxBy_append_singleton] at h
    split at h
    · cases h
      exact mem_append_right _ (mem_singleton_self x)
    · rename_i b hb
      split at h
      · cases h
        exact mem_append_right _ (mem_singleton_self x)
      · cases h
        exact mem_append_left _ (ih hb)

theorem lastMaxBy_eq_none_iff : l.lastMaxBy le = none ↔ l = [] := by
  induction l using reverseRecOn with
  | nil => exact ⟨fun _ => rfl, fun _ => rfl⟩
  | append_singleton l x ih =>
    rw [lastMaxBy_append_singleton]
    constructor
    · intro h
      split at h
      · cases h
      · split at h <;> cases h
    · intro h
      simp at h

end List
