import AfroLink.Base.Quorum

/-!
# Coalitions

The fewest members that reach a weight are the heaviest ones, one after the other.
-/

namespace Electorate

variable {ι : Type} [DecidableEq ι] (E : Electorate ι)

/-- The sizes of the sets that reach a weight. -/
def coalitions (target : ℕ) : Set ℕ := {n | ∃ Q ⊆ E.members, Q.card = n ∧ target ≤ E.weightOf Q}

/-- The sizes of the sets without which a weight is not reached. -/
def blockades (target : ℕ) : Set ℕ := {n | ∃ Q ⊆ E.members, Q.card = n ∧ E.weightOf (E.members \ Q) < target}

variable {E} {l l' : List ι}

theorem blockades_threshold (h : 0 < E.total) : E.blockades E.threshold = E.coalitions (E.tolerance + 1) := by
  ext n
  refine exists_congr fun Q => and_congr_right fun hQ => and_congr_right fun _ => ?_
  have hsplit : E.weightOf (E.members \ Q) + E.weightOf Q = E.total := Finset.sum_sdiff hQ
  unfold threshold tolerance
  omega

/-! ## Heaviest first -/

omit [DecidableEq ι]

theorem sum_take_le_cons {a : ι} (hl : (a :: l).Pairwise fun a b => E.weight b ≤ E.weight a) (n : ℕ) :
    ((l.take n).map E.weight).sum ≤ (((a :: l).take n).map E.weight).sum := by
  induction n generalizing a l with
  | zero => rfl
  | succ n ih =>
    cases l with
    | nil => simp
    | cons b rest =>
      obtain ⟨hle, hrest⟩ := List.pairwise_cons.1 hl
      have hfirst := hle b List.mem_cons_self
      have hlater := ih hrest
      simp only [List.take_succ_cons, List.map_cons, List.sum_cons]
      omega

theorem sum_le_sum_take (h : l'.Sublist l) (hl : l.Pairwise fun a b => E.weight b ≤ E.weight a) :
    (l'.map E.weight).sum ≤ ((l.take l'.length).map E.weight).sum := by
  induction h with
  | slnil => rfl
  | cons a _ ih => exact (ih (List.pairwise_cons.1 hl).2).trans (sum_take_le_cons hl _)
  | cons_cons a _ ih => exact Nat.add_le_add_left (ih (List.pairwise_cons.1 hl).2) _

variable [DecidableEq ι]

theorem isLeast_coalitions (hnodup : l.Nodup) (hmembers : l.toFinset = E.members)
    (hl : l.Pairwise fun a b => E.weight b ≤ E.weight a) {k target : ℕ} (hk : k ≤ l.length)
    (hreach : target ≤ ((l.take k).map E.weight).sum) (hleast : ∀ j < k, ((l.take j).map E.weight).sum < target) :
    IsLeast (E.coalitions target) k := by
  constructor
  · have htake : (l.take k).Nodup := hnodup.sublist (List.take_sublist k l)
    refine ⟨(l.take k).toFinset, fun a ha => ?_, ?_, ?_⟩
    · rw [← hmembers]
      exact List.mem_toFinset.2 (List.mem_of_mem_take (List.mem_toFinset.1 ha))
    · rw [List.toFinset_card_of_nodup htake, List.length_take_of_le hk]
    · rw [weightOf, List.sum_toFinset _ htake]
      exact hreach
  · rintro n ⟨Q, hQ, rfl, hheavy⟩
    -- the coalition as a part of the list
    have hpart : (l.filter (· ∈ Q)).toFinset = Q := by
      ext a
      have hmem : a ∈ Q → a ∈ l := fun ha => List.mem_toFinset.1 (hmembers ▸ hQ ha)
      simpa using hmem
    have hpart_nodup := hnodup.filter (· ∈ Q)
    have hcard : (l.filter (· ∈ Q)).length = Q.card := by
      rw [← List.toFinset_card_of_nodup hpart_nodup, hpart]
    have hweight : ((l.filter (· ∈ Q)).map E.weight).sum = E.weightOf Q := by
      rw [← List.sum_toFinset _ hpart_nodup, hpart, weightOf]
    have hle := sum_le_sum_take (l.filter_sublist (p := (· ∈ Q))) hl
    rw [hcard, hweight] at hle
    exact not_lt.1 fun hlt => absurd (hleast _ hlt) (not_lt.2 (hheavy.trans hle))

end Electorate
