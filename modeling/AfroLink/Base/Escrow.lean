import Mathlib

/-!
# Escrow

One account that holds money for many owners. A `Move` changes what is held and what is owed by the same amount, but
for a gift: money that comes in and is owed to nobody.
-/

structure Escrow (ι : Type) where
  owed : ι → ℕ
  held : ℕ

namespace Escrow

variable {ι : Type} [Fintype ι]

def debt (e : Escrow ι) : ℕ := ∑ i, e.owed i

def Backed (e : Escrow ι) : Prop := e.debt ≤ e.held

def Move (gift : ℕ) (e e' : Escrow ι) : Prop := e'.held + e.debt = e.held + e'.debt + gift

variable {e e' e'' : Escrow ι} {gift gift' : ℕ}

theorem owed_le_debt (e : Escrow ι) (i : ι) : e.owed i ≤ e.debt :=
  Finset.single_le_sum (fun _ _ => Nat.zero_le _) (Finset.mem_univ i)

theorem Backed.owed_le (h : e.Backed) (i : ι) : e.owed i ≤ e.held := (e.owed_le_debt i).trans h

theorem Backed.move (h : e.Backed) (m : Move gift e e') : e'.Backed := by
  unfold Backed Move at *
  omega

theorem surplus_of_move {surplus : ℕ} (h : e.held = e.debt + surplus) (m : Move 0 e e') :
    e'.held = e'.debt + surplus := by
  unfold Move at m
  omega

theorem debt_update [DecidableEq ι] {i : ι} {y : ℕ} (howed : e'.owed = Function.update e.owed i y) :
    e'.debt + e.owed i = e.debt + y := by
  have hsum := Finset.sum_update_of_mem (Finset.mem_univ i) e.owed y
  have hsplit := Finset.sum_eq_add_sum_sdiff_singleton_of_mem (Finset.mem_univ i) e.owed
  unfold debt
  rw [howed, hsum, hsplit]
  omega

namespace Move

theorem of_owed (howed : e'.owed = e.owed) (hheld : e'.held = e.held + gift) : Move gift e e' := by
  unfold Move debt
  rw [howed, hheld]
  omega

variable [DecidableEq ι]

theorem of_update {i : ι} {y : ℕ} (howed : e'.owed = Function.update e.owed i y)
    (hheld : e'.held + e.owed i = e.held + y) : Move 0 e e' := by
  have hdebt := debt_update howed
  unfold Move
  omega

end Move

end Escrow
