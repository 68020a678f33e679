import AfroLink.Staking.Staking

/-!
# What the concentration cap reaches

A pass lowers the largest powers to a share of the total, and so lowers the total and the next pass's share of it.
-/

namespace AfroLink

/-! ## The ceilings -/

namespace Concentration

variable {powers : List ℕ} {bps c : ℕ}

/-- The most a power may be of what is left when every power is cut off at `c`. -/
def allowed (powers : List ℕ) (bps c : ℕ) : ℕ := max 1 ((powers.map (min c)).sum * bps / 10000)

def lower (powers : List ℕ) (bps c : ℕ) : ℕ := min c (allowed powers bps c)

def top (powers : List ℕ) : ℕ := powers.foldr max 0

/-- From the largest power the ceilings stop falling within `n` passes. -/
def Settles (powers : List ℕ) (bps n : ℕ) : Prop :=
  Function.IsFixedPt (lower powers bps) ((lower powers bps)^[n] (top powers))

instance (powers : List ℕ) (bps n : ℕ) : Decidable (Settles powers bps n) := inferInstanceAs (Decidable (_ = _))

theorem le_top {p : ℕ} (h : p ∈ powers) : p ≤ top powers := by
  induction powers with
  | nil => cases h
  | cons q rest ih =>
    rcases List.mem_cons.1 h with rfl | h
    · exact le_max_left _ _
    · exact (ih h).trans (le_max_right _ _)

theorem top_mem (h : 0 < top powers) : top powers ∈ powers := by
  induction powers with
  | nil => exact absurd h (lt_irrefl 0)
  | cons q rest ih =>
    simp only [top, List.foldr_cons] at h ih ⊢
    rcases max_choice q (rest.foldr max 0) with hq | hq
    · simp [hq]
    · rw [hq] at h ⊢
      exact .tail _ (ih h)

end Concentration

/-! ## The passes -/

open Concentration

def CutAt (powers : List U64) (c : ℕ) (capped : List U64) : Prop :=
  capped.map (·.val) = (powers.map (·.val)).map (min c)

section

variable {powers capped : List U64} {maxBps : U32} {c : ℕ}

theorem top_lt (powers : List U64) : top (powers.map (·.val)) < 2 ^ 64 := by
  by_cases hpos : 0 < top (powers.map (·.val))
  · obtain ⟨p, -, hp⟩ := List.mem_map.1 (top_mem hpos)
    rw [← hp]
    exact p.isLt
  · omega

theorem CutAt.start : CutAt powers (top (powers.map (·.val))) powers := by
  unfold CutAt
  rw [List.map_map]
  refine List.map_congr_left fun p hp => ?_
  exact (min_eq_right (le_top (List.mem_map_of_mem hp))).symm

theorem CutAt.capPass (h : CutAt powers c capped) (hc : c < 2 ^ 64) :
    CutAt powers (lower (powers.map (·.val)) maxBps.val c) (AfroLink.capPass maxBps capped) := by
  unfold CutAt at h ⊢
  have hnext : (AfroLink.capPass maxBps capped).map (·.val) = (capped.map (·.val)).map
      (min (max (min ((capped.map fun p => p.val).sum * maxBps.val / 10000) (2 ^ 64 - 1)) 1)) := by
    simp only [AfroLink.capPass, List.map_map]
    refine List.map_congr_left fun p _ => ?_
    simp only [Function.comp, Fin.coe_min]
    exact min_comm _ _
  rw [hnext, h, List.map_map]
  refine List.map_congr_left fun p _ => ?_
  simp only [Function.comp, lower, allowed]
  omega

theorem capLoop_of_capPass_eq (n : ℕ) (h : capPass maxBps capped = capped) : capLoop maxBps n capped = capped := by
  cases n with
  | zero => rfl
  | succ n => exact if_pos h

theorem CutAt.capLoop (n : ℕ) (h : CutAt powers c capped) (hc : c < 2 ^ 64) :
    CutAt powers ((lower (powers.map (·.val)) maxBps.val)^[n] c) (AfroLink.capLoop maxBps n capped) := by
  induction n generalizing c capped with
  | zero => exact h
  | succ n ih =>
    have hpass : CutAt powers (lower (powers.map (·.val)) maxBps.val c) (AfroLink.capPass maxBps capped) := h.capPass hc
    have hrest := ih hpass ((min_le_left _ _).trans_lt hc)
    unfold AfroLink.capLoop
    dsimp only
    split
    · rename_i hsame
      rwa [hsame, capLoop_of_capPass_eq n hsame] at hrest
    · exact hrest

theorem CutAt.capConcentration (powers : List U64) (hpos : 0 < maxBps.val) (hlt : maxBps.val < 10000) :
    CutAt powers ((lower (powers.map (·.val)) maxBps.val)^[powers.length] (top (powers.map (·.val))))
      (AfroLink.capConcentration powers maxBps) := by
  unfold AfroLink.capConcentration
  rw [if_neg (by simp only [Fin.ext_iff, Fin.le_def]; simp; omega)]
  exact CutAt.start.capLoop _ (top_lt powers)

end

/-! ## The cap -/

section

variable {powers capped : List U64} {maxBps : U32} {c : ℕ}

theorem CutAt.getElem? (h : CutAt powers c capped) {i : ℕ} {a a' : U64} (ha : powers[i]? = some a)
    (ha' : capped[i]? = some a') : a'.val = min c a.val := by
  have hi := congrArg (·[i]?) h
  simpa [ha, ha'] using hi

theorem CutAt.le (h : CutAt powers c capped) : List.Forall₂ (· ≤ ·) capped powers := by
  have hlen : capped.length = powers.length := by simpa using congrArg List.length h
  refine List.forall₂_iff_get.2 ⟨hlen, fun i hi hi' => ?_⟩
  have hval := h.getElem? (List.getElem?_eq_getElem hi') (List.getElem?_eq_getElem hi)
  rw [List.get_eq_getElem, List.get_eq_getElem, Fin.le_def, hval]
  exact min_le_right _ _

theorem CutAt.order (h : CutAt powers c capped) (i j : ℕ) (a b a' b' : U64) (ha : powers[i]? = some a)
    (hb : powers[j]? = some b) (ha' : capped[i]? = some a') (hb' : capped[j]? = some b') (hle : b ≤ a) : b' ≤ a' := by
  rw [Fin.le_def, h.getElem? ha ha', h.getElem? hb hb']
  exact min_le_min_left c hle

end

namespace Sample

end Sample

end AfroLink
