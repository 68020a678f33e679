import Mathlib

/-!
# Weighted quorums

Sets of more than two thirds of a total weight. Any two of them share more than a minority that is too small to
matter can hold.
-/

variable {ι : Type} [DecidableEq ι]

/-- Who there is and what each of them weighs. -/
structure Electorate (ι : Type) where
  members : Finset ι
  weight : ι → ℕ

namespace Electorate

variable (E : Electorate ι)

def weightOf (Q : Finset ι) : ℕ := ∑ v ∈ Q, E.weight v

def total : ℕ := E.weightOf E.members

def threshold : ℕ := 2 * E.total / 3 + 1

/-- The most that may be held by members who do not follow the rules. -/
def tolerance : ℕ := (E.total - 1) / 3

structure IsQuorum (Q : Finset ι) : Prop where
  subset : Q ⊆ E.members
  heavy : E.threshold ≤ E.weightOf Q

variable {E} {Q R B : Finset ι}

omit [DecidableEq ι] in
theorem weightOf_mono (h : Q ⊆ R) : E.weightOf Q ≤ E.weightOf R := Finset.sum_le_sum_of_subset h

theorem weightOf_add_le (hQ : Q ⊆ E.members) (hR : R ⊆ E.members) :
    E.weightOf Q + E.weightOf R ≤ E.weightOf (Q ∩ R) + E.total := by
  have hsplit : E.weightOf (Q ∪ R) + E.weightOf (Q ∩ R) = E.weightOf Q + E.weightOf R :=
    Finset.sum_union_inter
  have hunion : E.weightOf (Q ∪ R) ≤ E.total := weightOf_mono (Finset.union_subset hQ hR)
  omega

theorem IsQuorum.tolerance_lt_inter (hQ : E.IsQuorum Q) (hR : E.IsQuorum R) : E.tolerance < E.weightOf (Q ∩ R) := by
  have hsum := weightOf_add_le hQ.subset hR.subset
  have hheavyQ := hQ.heavy
  have hheavyR := hR.heavy
  unfold threshold at hheavyQ hheavyR
  unfold tolerance
  omega

theorem exists_not_mem_of_weight (hB : E.weightOf B ≤ E.tolerance) (hQ : E.tolerance < E.weightOf Q) :
    ∃ v ∈ Q, v ∉ B := by
  by_contra hnone
  have hsub : Q ⊆ B := fun v hv => by
    by_contra hvB
    exact hnone ⟨v, hv, hvB⟩
  have hle := weightOf_mono (E := E) hsub
  omega

theorem IsQuorum.exists_common (hQ : E.IsQuorum Q) (hR : E.IsQuorum R) (hB : E.weightOf B ≤ E.tolerance) :
    ∃ v, v ∈ Q ∧ v ∈ R ∧ v ∉ B := by
  obtain ⟨v, hv, hvB⟩ := exists_not_mem_of_weight hB (hQ.tolerance_lt_inter hR)
  exact ⟨v, (Finset.mem_inter.1 hv).1, (Finset.mem_inter.1 hv).2, hvB⟩

end Electorate
