import AfroLink.State.Store

/-!
# The values of a store

A store seen through the values set in it, whether or not a decoder accepts them.
-/

namespace AfroLink.Store

def valueAt (s : Store) (k : StoreKey) : Option k.Value :=
  match s k with
  | some (.value v) => some v
  | _ => none

variable {s s' : Store} {k k' : StoreKey}

theorem valueAt_of_read {v : Option k.Value} (h : s.getDecoded k = .ok v) : s.valueAt k = v := by
  unfold valueAt
  cases v with
  | none => rw [getDecoded_eq_none.1 h]
  | some v => rw [(getDecoded_eq_some.1 h).1]

theorem valueAt_eq_some {v : k.Value} : s.valueAt k = some v ↔ s k = some (.value v) := by
  unfold valueAt
  split <;> simp_all

theorem valueAt_congr (h : s' k = s k) : s'.valueAt k = s.valueAt k := by
  unfold valueAt
  rw [h]

@[simp] theorem valueAt_set_self {v : k.Value} : (s.set k v).valueAt k = some v := valueAt_eq_some.2 set_self

@[simp] theorem valueAt_set_of_ne {v : k.Value} (h : k' ≠ k) : (s.set k v).valueAt k' = s.valueAt k' :=
  valueAt_congr (set_of_ne h)

@[simp] theorem valueAt_delete_self : (s.delete k).valueAt k = none := by
  unfold valueAt
  rw [delete_self]

@[simp] theorem valueAt_delete_of_ne (h : k' ≠ k) : (s.delete k).valueAt k' = s.valueAt k' :=
  valueAt_congr (delete_of_ne h)

end AfroLink.Store
