import Mathlib

/-!
# Machine words

An unsigned machine word of `w` bits is an element of `Fin (2 ^ w)`. The arithmetic
on it is either checked or saturating; nothing here wraps.
-/

abbrev U8 := Fin (2 ^ 8)
abbrev U16 := Fin (2 ^ 16)
abbrev U32 := Fin (2 ^ 32)
abbrev U64 := Fin (2 ^ 64)
abbrev U128 := Fin (2 ^ 128)

-- Word sizes, as constants: the numerals of a word type refer to them.
instance two_pow_8_ne_zero : NeZero (2 ^ 8) := ⟨by decide⟩
instance two_pow_16_ne_zero : NeZero (2 ^ 16) := ⟨by decide⟩
instance two_pow_32_ne_zero : NeZero (2 ^ 32) := ⟨by decide⟩
instance two_pow_64_ne_zero : NeZero (2 ^ 64) := ⟨by decide⟩
instance two_pow_128_ne_zero : NeZero (2 ^ 128) := ⟨by decide⟩
instance two_pow_160_ne_zero : NeZero (2 ^ 160) := ⟨by decide⟩
instance two_pow_256_ne_zero : NeZero (2 ^ 256) := ⟨by decide⟩
instance two_pow_512_ne_zero : NeZero (2 ^ 512) := ⟨pow_ne_zero _ two_ne_zero⟩

namespace Fin

variable {n : Nat}

def checkedAdd (a b : Fin n) : Option (Fin n) :=
  if h : a.val + b.val < n then some ⟨a.val + b.val, h⟩ else none

def checkedSub (a b : Fin n) : Option (Fin n) :=
  if b.val ≤ a.val then some ⟨a.val - b.val, by omega⟩ else none

def checkedMul (a b : Fin n) : Option (Fin n) :=
  if h : a.val * b.val < n then some ⟨a.val * b.val, h⟩ else none

def saturatingAdd (a b : Fin n) : Fin n :=
  ⟨min (a.val + b.val) (n - 1), by omega⟩

def saturatingSub (a b : Fin n) : Fin n :=
  ⟨a.val - b.val, by omega⟩

def saturatingMul (a b : Fin n) : Fin n :=
  ⟨min (a.val * b.val) (n - 1), by have := a.isLt; omega⟩

theorem checkedAdd_eq_some {a b c : Fin n} :
    a.checkedAdd b = some c ↔ c.val = a.val + b.val := by
  unfold checkedAdd
  split
  · simp [Fin.ext_iff, eq_comm]
  · have := c.isLt
    simp; omega

theorem checkedSub_eq_some {a b c : Fin n} :
    a.checkedSub b = some c ↔ b.val ≤ a.val ∧ c.val = a.val - b.val := by
  unfold checkedSub
  split
  · simp [Fin.ext_iff, eq_comm, *]
  · simp [*]

theorem checkedMul_eq_some {a b c : Fin n} : a.checkedMul b = some c ↔ c.val = a.val * b.val := by
  unfold checkedMul
  split
  · simp [Fin.ext_iff, eq_comm]
  · have := c.isLt
    simp
    omega

@[simp] theorem saturatingAdd_val (a b : Fin n) :
    (a.saturatingAdd b).val = min (a.val + b.val) (n - 1) := rfl

@[simp] theorem saturatingSub_val (a b : Fin n) : (a.saturatingSub b).val = a.val - b.val := rfl

theorem le_saturatingAdd (a b : Fin n) : a ≤ a.saturatingAdd b := by
  simp only [Fin.le_def, saturatingAdd_val]; omega

end Fin
