import Mathlib

/-!
# Ledgers of one currency

A balance for each account and a stated supply. A `Move` keeps the gap between what is held and what is
stated, and takes only from accounts that satisfy `debtor`.
-/

structure Ledger (ι : Type) where
  balance : ι → ℕ
  supply : ℕ

namespace Ledger

variable {ι : Type} [Fintype ι]

def held (l : Ledger ι) : ℕ := ∑ i, l.balance i

def Balanced (l : Ledger ι) : Prop := l.held = l.supply

theorem balance_le_held (l : Ledger ι) (i : ι) : l.balance i ≤ l.held :=
  Finset.single_le_sum (fun _ _ => Nat.zero_le _) (Finset.mem_univ i)

theorem balance_add_le_held [DecidableEq ι] (l : Ledger ι) {i j : ι} (h : i ≠ j) :
    l.balance i + l.balance j ≤ l.held := by
  rw [← Finset.sum_pair h]
  exact Finset.sum_le_sum_of_subset (Finset.subset_univ _)

structure Move (debtor : ι → Prop) (l l' : Ledger ι) : Prop where
  conserves : l'.held + l.supply = l.held + l'.supply
  debits : ∀ i, l'.balance i < l.balance i → debtor i

variable {debtor debtor' : ι → Prop} {l l' l'' : Ledger ι}

theorem Balanced.move (h : l.Balanced) (m : Move debtor l l') : l'.Balanced := by
  have hc := m.conserves
  unfold Balanced at *
  omega

namespace Move

theorem refl (l : Ledger ι) : Move debtor l l := ⟨rfl, fun _ h => absurd h (lt_irrefl _)⟩

theorem trans (m : Move debtor l l') (m' : Move debtor l' l'') : Move debtor l l'' := by
  refine ⟨?_, fun i hi => ?_⟩
  · have h := m.conserves
    have h' := m'.conserves
    omega
  · by_cases h : l'.balance i < l.balance i
    · exact m.debits i h
    · exact m'.debits i (by omega)

theorem mono (m : Move debtor l l') (h : ∀ i, debtor i → debtor' i) : Move debtor' l l' :=
  ⟨m.conserves, fun i hi => h i (m.debits i hi)⟩

variable [DecidableEq ι]

variable {x : ℕ} {i : ι}

theorem held_of_update (h : l'.balance = Function.update l.balance i x) : l'.held + l.balance i = l.held + x := by
  have hs := Finset.sum_update_of_mem (Finset.mem_univ i) l.balance x
  have ht := Finset.sum_eq_add_sum_sdiff_singleton_of_mem (Finset.mem_univ i) l.balance
  unfold held
  rw [h, hs, ht]
  omega

theorem issue (hb : l'.balance = Function.update l.balance i (l.balance i + x))
    (hs : l'.supply = l.supply + x) : Move debtor l l' := by
  refine ⟨?_, fun j hj => ?_⟩
  · have := held_of_update hb
    omega
  · rw [hb] at hj
    by_cases h : j = i
    · subst h
      rw [Function.update_self] at hj
      omega
    · simp [h] at hj

theorem destroy (hb : l'.balance = Function.update l.balance i (l.balance i - x))
    (hx : x ≤ l.balance i) (hs : l'.supply + x = l.supply) (hi : debtor i) : Move debtor l l' := by
  refine ⟨?_, fun j hj => ?_⟩
  · have := held_of_update hb
    omega
  · by_cases h : j = i
    · exact h ▸ hi
    · simp [hb, h] at hj

theorem pay {j : ι} (hij : i ≠ j)
    (hb : l'.balance = Function.update (Function.update l.balance i (l.balance i - x)) j (l.balance j + x))
    (hx : x ≤ l.balance i) (hs : l'.supply = l.supply) (hi : debtor i) : Move debtor l l' := by
  -- through the ledger in between, where `i` has paid and `j` has not been credited
  let mid : Ledger ι := ⟨Function.update l.balance i (l.balance i - x), l.supply⟩
  have hpaid : mid.held + l.balance i = l.held + (l.balance i - x) := held_of_update rfl
  have hcredited : l'.held + mid.balance j = mid.held + (l.balance j + x) := held_of_update hb
  have hj : mid.balance j = l.balance j := Function.update_of_ne hij.symm ..
  refine ⟨by omega, fun k hk => ?_⟩
  by_cases hki : k = i
  · exact hki ▸ hi
  · by_cases hkj : k = j
    · subst hkj
      rw [hb, Function.update_self] at hk
      omega
    · simp [hb, hki, hkj] at hk

end Move

end Ledger
