import AfroLink.Primitives.Basic

/-!
# Ratios
-/

namespace AfroLink

namespace Amount

theorem mulRatio_of_fits {a : Amount} {numer denom : U128} (hpos : 0 < denom.val) (hnumer : numer.val ≤ 2 ^ 64)
    (hdenom : denom.val ≤ 2 ^ 64) (hfits : a.val * numer.val / denom.val < 2 ^ 128) :
    a.mulRatio numer denom = .ok ⟨a.val * numer.val / denom.val, hfits⟩ := by
  have hsplit : a.val / denom.val * numer.val + a.val % denom.val * numer.val / denom.val =
      a.val * numer.val / denom.val := by
    conv_rhs => rw [← Nat.div_add_mod a.val denom.val, Nat.add_mul, Nat.mul_assoc]
    rw [Nat.mul_add_div hpos]
  have hr : a.val % denom.val * numer.val < 2 ^ 128 := by
    have hmod : a.val % denom.val ≤ 2 ^ 64 - 1 := by
      have := Nat.mod_lt a.val hpos
      omega
    have hle := Nat.mul_le_mul hmod hnumer
    omega
  have hq : a.val / denom.val * numer.val < 2 ^ 128 := by
    have hle := Nat.le_add_right (a.val / denom.val * numer.val) (a.val % denom.val * numer.val / denom.val)
    exact lt_of_le_of_lt (hle.trans_eq hsplit) hfits
  unfold mulRatio
  rw [if_neg hpos.ne']
  simp only [Fin.checkedMul, Fin.checkedAdd, hq, hr, dif_pos, hsplit]
  rw [dif_pos hfits]

end Amount

theorem mulRatio_exact (a : Amount) (numer denom : U128) (hpos : 0 < denom.val) :
    (∀ c, a.mulRatio numer denom = .ok c → c.val = a.val * numer.val / denom.val) ∧
    (numer.val ≤ 2 ^ 64 → denom.val ≤ 2 ^ 64 → a.val * numer.val / denom.val < 2 ^ 128 →
      ∃ c, a.mulRatio numer denom = .ok c) :=
  ⟨fun _ hc => (Amount.mulRatio_eq_ok hc).2,
    fun hnumer hdenom hfits => ⟨_, Amount.mulRatio_of_fits hpos hnumer hdenom hfits⟩⟩

/-- Two thirds of the largest amount. -/
theorem mulRatio_exact_two_thirds :
    ∃ c, Amount.mulRatio (Fin.last _) 2 3 = .ok c ∧ c.val = (2 ^ 128 - 1) * 2 / 3 := by
  obtain ⟨hvalue, hok⟩ := mulRatio_exact (Fin.last _) 2 3 (by decide)
  obtain ⟨c, hc⟩ := hok (by decide) (by decide) (by decide)
  exact ⟨c, hc, hvalue c hc⟩

end AfroLink
