import AfroLink.Base.HashTree

/-!
# Tries in canonical form

A tree of hashes whose tips may hold an entry, branching on the bits of the keys. In canonical form a branch holds two
entries or more, so that the entries alone decide the tree.
-/

namespace HashTree

variable {κ β : Type}

def entries : HashTree (Option (κ × β)) → List (κ × β)
  | tip none => []
  | tip (some e) => [e]
  | fork l r => l.entries ++ r.entries

theorem mem_tips {t : HashTree (Option (κ × β))} {e : κ × β} : some e ∈ t.tips ↔ e ∈ t.entries := by
  induction t with
  | tip a => cases a <;> simp [tips, entries]
  | fork l r ihl ihr => simp [tips, entries, ihl, ihr]

def Under (bit : κ → ℕ → Bool) (d : ℕ) (key : κ) (t : HashTree (Option (κ × β))) : Prop :=
  ∀ e ∈ t.entries, ∀ i < d, bit e.1 i = bit key i

/-- Canonical from depth `d` on, the keys being `width` bits long. -/
def Canonical (bit : κ → ℕ → Bool) (width : ℕ) : ℕ → HashTree (Option (κ × β)) → Prop
  | _, tip _ => True
  | d, fork l r => d < width ∧ 2 ≤ (fork l r).entries.length ∧ (∀ e ∈ l.entries, bit e.1 d = false) ∧
      (∀ e ∈ r.entries, bit e.1 d = true) ∧ Canonical bit width (d + 1) l ∧ Canonical bit width (d + 1) r

variable {bit : κ → ℕ → Bool} {width d : ℕ} {t t' l r : HashTree (Option (κ × β))} {key : κ}

theorem Under.zero : Under bit 0 key t := fun _ _ _ h => absurd h (Nat.not_lt_zero _)

theorem Under.descend (h : Under bit d key (fork l r)) (hc : Canonical bit width d (fork l r)) :
    Under bit (d + 1) key (bif bit key d then r else l) := by
  obtain ⟨-, -, hleft, hright, -, -⟩ := hc
  intro e he i hi
  obtain hlt | rfl := Nat.lt_succ_iff_lt_or_eq.1 hi
  · refine h e ?_ i hlt
    cases hbit : bit key d with
    | false => exact List.mem_append_left _ (by simpa [hbit] using he)
    | true => exact List.mem_append_right _ (by simpa [hbit] using he)
  · cases hbit : bit key i with
    | false => exact hleft e (by simpa [hbit] using he)
    | true => exact hright e (by simpa [hbit] using he)

namespace Canonical

theorem mem_side (h : Canonical bit width d (fork l r)) {e : κ × β} :
    e ∈ (fork l r).entries ↔ e ∈ (bif bit e.1 d then r else l).entries := by
  obtain ⟨-, -, hleft, hright, -, -⟩ := h
  rw [entries, List.mem_append]
  constructor
  · rintro (he | he)
    · simpa [hleft e he] using he
    · simpa [hright e he] using he
  · cases bit e.1 d with
    | false => exact .inl
    | true => exact .inr

theorem nodup (h : Canonical bit width d t) : (t.entries.map Prod.fst).Nodup := by
  induction t generalizing d with
  | tip a => cases a <;> simp [entries]
  | fork l r ihl ihr =>
    obtain ⟨-, -, hleft, hright, hl, hr⟩ := h
    rw [entries, List.map_append]
    refine (ihl hl).append (ihr hr) ?_
    intro k hkl hkr
    obtain ⟨e, he, rfl⟩ := List.mem_map.1 hkl
    obtain ⟨e', he', heq⟩ := List.mem_map.1 hkr
    have hbit := hright e' he'
    rw [heq, hleft e he] at hbit
    cases hbit

theorem eq_absent (h : Canonical bit width d t) (hnil : t.entries = []) : t = tip none := by
  cases t with
  | tip a =>
    cases a with
    | none => rfl
    | some e => cases hnil
  | fork l r =>
    have hmany := h.2.1
    rw [hnil] at hmany
    simp at hmany

theorem eq_leaf {e : κ × β} (h : Canonical bit width d t) (hone : t.entries = [e]) : t = tip (some e) := by
  cases t with
  | tip a =>
    cases a with
    | none => cases hone
    | some e' =>
      cases hone
      rfl
  | fork l r =>
    have hmany := h.2.1
    rw [hone] at hmany
    simp at hmany

theorem perm (h : Canonical bit width d t) (h' : Canonical bit width d t')
    (hentries : ∀ e, e ∈ t.entries ↔ e ∈ t'.entries) : t.entries.Perm t'.entries :=
  (List.perm_ext_iff_of_nodup h.nodup.of_map h'.nodup.of_map).2 hentries

theorem ext (h : Canonical bit width d t) (h' : Canonical bit width d t')
    (hentries : ∀ e, e ∈ t.entries ↔ e ∈ t'.entries) : t = t' := by
  induction t generalizing d t' with
  | tip a =>
    have hperm := h.perm h' hentries
    cases a with
    | none => exact (h'.eq_absent (List.nil_perm.1 hperm)).symm
    | some e => exact (h'.eq_leaf (List.singleton_perm.1 hperm).symm).symm
  | fork l r ihl ihr =>
    cases t' with
    | tip a =>
      have hmany := h.2.1
      rw [(h.perm h' hentries).length_eq] at hmany
      cases a <;> simp [entries] at hmany
    | fork l' r' =>
      have hside : ∀ e, e ∈ (bif bit e.1 d then r else l).entries ↔ e ∈ (bif bit e.1 d then r' else l').entries :=
        fun e => h.mem_side.symm.trans ((hentries e).trans h'.mem_side)
      obtain ⟨-, -, hleft, hright, hl, hr⟩ := h
      obtain ⟨-, -, hleft', hright', hl', hr'⟩ := h'
      -- on either side the keys have the same bit, so the sides agree one by one
      have hl : l = l' := ihl hl hl' fun e =>
        ⟨fun he => by simpa [hleft e he, he] using hside e, fun he => by simpa [hleft' e he, he] using hside e⟩
      have hr : r = r' := ihr hr hr' fun e =>
        ⟨fun he => by simpa [hright e he, he] using hside e, fun he => by simpa [hright' e he, he] using hside e⟩
      rw [hl, hr]

end Canonical

end HashTree
