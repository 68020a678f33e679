import Mathlib

/-!
# Portions of a fund

A fund divided in proportion to shares, each portion rounded down: no more goes out than there is, and less than one
unit a share-holder stays behind.
-/

variable {ι : Type}

namespace Portions

theorem mul_sum_div_add_sum_mod (fund total : ℕ) (share : ι → ℕ) (l : List ι) :
    total * (l.map fun i => fund * share i / total).sum + (l.map fun i => fund * share i % total).sum =
      fund * (l.map share).sum := by
  induction l with
  | nil => simp
  | cons i l ih =>
    have hdiv := Nat.div_add_mod (fund * share i) total
    simp only [List.map_cons, List.sum_cons, Nat.mul_add]
    omega

theorem sum_le {total : ℕ} {share : ι → ℕ} {l : List ι} (fund : ℕ) (htotal : (l.map share).sum = total)
    (hpos : 0 < total) : (l.map fun i => fund * share i / total).sum ≤ fund := by
  have hsplit := mul_sum_div_add_sum_mod fund total share l
  rw [htotal, Nat.mul_comm fund total] at hsplit
  exact Nat.le_of_mul_le_mul_left (Nat.le.intro hsplit) hpos

theorem le_sum_add {total : ℕ} {share : ι → ℕ} {l : List ι} (fund : ℕ) (htotal : (l.map share).sum = total)
    (hpos : 0 < total) : fund ≤ (l.map fun i => fund * share i / total).sum + (l.length - 1) := by
  have hsplit := mul_sum_div_add_sum_mod fund total share l
  have hrest : (l.map fun i => fund * share i % total).sum + l.length ≤ l.length * total := by
    clear htotal hsplit
    induction l with
    | nil => simp
    | cons i l ih =>
      have hlt := Nat.mod_lt (fund * share i) hpos
      simp only [List.map_cons, List.sum_cons, List.length_cons, Nat.succ_mul]
      omega
  have hlength : 0 < l.length := by
    cases l with
    | nil => simp at htotal; omega
    | cons => simp
  rw [htotal] at hsplit
  have hlt : total * fund < total * ((l.map fun i => fund * share i / total).sum + l.length) := by
    rw [Nat.mul_add, Nat.mul_comm total fund, Nat.mul_comm total l.length]
    omega
  have := Nat.lt_of_mul_lt_mul_left hlt
  omega

theorem eq_of_sum_eq {f g : ι → ℕ} {l : List ι} (hle : ∀ i ∈ l, f i ≤ g i) (hsum : (l.map f).sum = (l.map g).sum) :
    ∀ i ∈ l, f i = g i := by
  induction l with
  | nil => simp
  | cons i l ih =>
    have hhead := hle i (by simp)
    have hrest : (l.map f).sum ≤ (l.map g).sum := List.sum_le_sum fun j hj => hle j (by simp [hj])
    simp only [List.map_cons, List.sum_cons] at hsum
    intro j hj
    rcases List.mem_cons.1 hj with rfl | hj
    · omega
    · exact ih (fun k hk => hle k (by simp [hk])) (by omega) j hj

end Portions
