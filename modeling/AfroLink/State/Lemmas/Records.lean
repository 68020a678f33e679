import AfroLink.State.Lemmas.Footprint

/-!
# Records stay readable

What each decoder accepts, as a structure of named facts, and that the operations on a record keep it.
-/

theorem List.Pairwise.orderedInsert_lt {α κ : Type} [LinearOrder κ] (key : α → κ) {a : α} {l : List α}
    (h : l.Pairwise fun x y => key x < key y) (ha : ∀ x ∈ l, key x ≠ key a) :
    (l.orderedInsert (fun x y => key x ≤ key y) a).Pairwise fun x y => key x < key y := by
  induction l with
  | nil => simp
  | cons b rest ih =>
    obtain ⟨hb, hrest⟩ := List.pairwise_cons.1 h
    rw [List.orderedInsert]
    split
    · rename_i hle
      have hab : key a < key b := lt_of_le_of_ne hle (ha b (by simp)).symm
      refine List.pairwise_cons.2 ⟨fun y hy => ?_, h⟩
      rcases List.mem_cons.1 hy with rfl | hy
      · exact hab
      · exact hab.trans (hb y hy)
    · rename_i hle
      refine List.pairwise_cons.2 ⟨fun y hy => ?_, ih hrest fun x hx => ha x (by simp [hx])⟩
      rcases List.mem_orderedInsert _ |>.1 hy with rfl | hy
      · exact lt_of_not_ge hle
      · exact hb y hy

namespace AfroLink

/-! ## Decoder checks -/

@[simp] theorem firstError_nil : firstError [] = none := rfl

@[simp] theorem firstError_cons_eq_none {o : Option String} {l : List (Option String)} :
    firstError (o :: l) = none ↔ o = none ∧ firstError l = none := by
  cases o <;> simp [firstError]

theorem firstError_map_eq_none {α : Type} {f : α → Option String} {l : List α} :
    firstError (l.map f) = none ↔ ∀ a ∈ l, f a = none := by
  induction l with
  | nil => simp
  | cons a rest ih => simp [ih]

@[simp] theorem refuse_eq_none {c : Prop} [Decidable c] {reason : String} : refuse c reason = none ↔ ¬ c := by
  unfold refuse
  split <;> simp_all

@[simp] theorem tooLong_eq_none {α : Type} {l : List α} : tooLong l = none ↔ l.length ≤ MAX_FIELD_LEN := by
  simp [tooLong]

/-! ## Issuers -/

namespace Issuer

structure Sound (i : Issuer) : Prop where
  count : i.minters.length ≤ MAX_MINTERS
  offer : i.pendingAuthority ≠ some i.authority
  sorted : i.minters.Pairwise fun a b => a.address < b.address
  nonzero : ∀ m ∈ i.minters, m.allowance.isZero = false

variable {i j : Issuer} {a : Address} {x : Amount}

theorem decodeError_eq_none : i.decodeError = none ↔ i.Sound := by
  have htrans : IsTrans Minter fun a b => a.address < b.address := ⟨fun _ _ _ => lt_trans⟩
  simp only [decodeError, firstError_cons_eq_none, firstError_nil, refuse_eq_none, tooLong_eq_none,
    List.isChain_iff_pairwise, List.any_eq_true, not_exists, not_and, not_not, not_lt, gt_iff_lt]
  constructor
  · rintro ⟨-, hc, ho, hs, hz, -⟩
    exact ⟨hc, ho, hs, fun m hm => by simpa using hz m hm⟩
  · rintro ⟨hc, ho, hs, hz⟩
    exact ⟨hc.trans (by decide), hc, ho, hs, fun m hm => by simp [hz m hm], trivial⟩

theorem new_sound (a : Address) : (new a).Sound := ⟨by simp [new], by simp [new], by simp [new], by simp [new]⟩

theorem Sound.writeAllowance (h : i.Sound) : (i.writeAllowance a x).Sound := by
  unfold Issuer.writeAllowance
  by_cases hx : x.isZero = true
  · simp only [hx, if_true]
    exact ⟨(List.length_filter_le _ _).trans h.count, h.offer, h.sorted.filter _,
      fun m hm => h.nonzero m (List.mem_of_mem_filter hm)⟩
  · simp only [hx, Bool.false_eq_true, if_false]
    refine ⟨by simpa using h.count, h.offer, ?_, fun m hm => ?_⟩
    · have hsame : ∀ m : Minter, (if m.address = a then { m with allowance := x } else m).address = m.address := by
        intro m
        split <;> rfl
      exact List.pairwise_map.2 (h.sorted.imp fun {b c} hbc => by rwa [hsame, hsame])
    · obtain ⟨m', hm', rfl⟩ := List.mem_map.1 hm
      split
      · simpa using hx
      · exact h.nonzero m' hm'

theorem Sound.setMinter (h : i.Sound) (hj : i.setMinter a x = .ok j) : j.Sound := by
  unfold Issuer.setMinter at hj
  split at hj
  · cases hj
    exact h.writeAllowance
  · rename_i hnone
    split_ifs at hj with hx hfull
    · cases hj
      exact h
    · cases hj
      have habsent : ∀ m ∈ i.minters, m.address ≠ a := by
        simpa [minter, List.find?_eq_none] using hnone
      refine ⟨?_, h.offer, h.sorted.orderedInsert_lt Minter.address habsent, fun m hm => ?_⟩
      · simpa [List.orderedInsert_length] using not_le.1 hfull
      · rcases List.mem_orderedInsert _ |>.1 hm with rfl | hm
        · simpa using hx
        · exact h.nonzero m hm

theorem Sound.spendAllowance (h : i.Sound) (hj : i.spendAllowance a x = some j) : j.Sound := by
  unfold Issuer.spendAllowance at hj
  split at hj
  · cases hj
  · split at hj
    · cases hj
    · cases hj
      exact h.writeAllowance

variable {dst : Option Address} {b : Address}

theorem Sound.offerAuthority (h : i.Sound) (hj : i.offerAuthority dst = .ok j) : j.Sound := by
  unfold Issuer.offerAuthority at hj
  split_ifs at hj with hd
  cases hj
  exact ⟨h.count, hd, h.sorted, h.nonzero⟩

theorem Sound.acceptAuthority (h : i.Sound) (hj : i.acceptAuthority a = .ok j) : j.Sound := by
  unfold Issuer.acceptAuthority at hj
  split_ifs at hj
  cases hj
  exact ⟨h.count, nofun, h.sorted, h.nonzero⟩

theorem Sound.tightenCap (h : i.Sound) (hj : i.tightenCap x = .ok j) : j.Sound := by
  unfold Issuer.tightenCap at hj
  split_ifs at hj
  cases hj
  exact ⟨h.count, h.offer, h.sorted, h.nonzero⟩

theorem Sound.withFreezer {freezer : Option Address} (h : i.Sound) (hj : .ok { i with freezer } = Except.ok (ε := IssuerError) j) :
    j.Sound := by
  cases hj
  exact ⟨h.count, h.offer, h.sorted, h.nonzero⟩

theorem Sound.withPaused {paused : Bool} (h : i.Sound) (hj : .ok { i with paused } = Except.ok (ε := IssuerError) j) :
    j.Sound := by
  cases hj
  exact ⟨h.count, h.offer, h.sorted, h.nonzero⟩

/-! What is left of an allowance, and of the rest of the record. -/

/-- `j` differs from `i` in its minters at most. -/
structure SameButMinters (i j : Issuer) : Prop where
  authority : j.authority = i.authority
  pendingAuthority : j.pendingAuthority = i.pendingAuthority
  maxSupply : j.maxSupply = i.maxSupply

theorem SameButMinters.of_spendAllowance (h : i.spendAllowance a x = some j) : SameButMinters i j := by
  unfold Issuer.spendAllowance at h
  split at h
  · cases h
  · split at h <;> cases h
    exact ⟨rfl, rfl, rfl⟩

theorem SameButMinters.of_setMinter (h : i.setMinter a x = .ok j) : SameButMinters i j := by
  unfold Issuer.setMinter at h
  split at h
  · cases h
    exact ⟨rfl, rfl, rfl⟩
  · split_ifs at h <;> cases h <;> exact ⟨rfl, rfl, rfl⟩

theorem offerAuthority_eq_ok :
    i.offerAuthority dst = .ok j ↔ dst ≠ some i.authority ∧ j = { i with pendingAuthority := dst } := by
  unfold Issuer.offerAuthority
  split_ifs with h <;> simp [h, eq_comm]

theorem acceptAuthority_eq_ok :
    i.acceptAuthority a = .ok j ↔
      i.pendingAuthority = some a ∧ j = { i with authority := a, pendingAuthority := none } := by
  unfold Issuer.acceptAuthority
  split_ifs with h
  · simp [h]
  · simp [not_not.1 h, eq_comm]

theorem tightenCap_eq_ok :
    i.tightenCap x = .ok j ↔ (∀ c, i.maxSupply = some c → x ≤ c) ∧ j = { i with maxSupply := some x } := by
  unfold Issuer.tightenCap
  split_ifs with h
  · obtain ⟨c, hc, hlt⟩ := (Option.any_eq_true _ _).1 h
    refine ⟨nofun, fun ⟨hall, _⟩ => ?_⟩
    exact absurd (of_decide_eq_true hlt) (not_lt.2 (hall c hc))
  · have hall : ∀ c, i.maxSupply = some c → x ≤ c := fun c hc => by simpa [hc] using h
    exact ⟨fun hj => ⟨hall, by cases hj; rfl⟩, fun ⟨_, hj⟩ => hj ▸ rfl⟩

theorem allowanceOf_of_find (h : j.minters.find? (·.address == b) = i.minters.find? (·.address == b)) :
    j.allowanceOf b = i.allowanceOf b := by
  unfold allowanceOf minter
  rw [h]

theorem allowanceOf_writeAllowance (h : (i.minter a).isSome = true) : (i.writeAllowance a x).allowanceOf a = x := by
  unfold allowanceOf minter Issuer.writeAllowance
  by_cases hx : x.isZero = true
  · have hnone : (i.minters.filter (·.address != a)).find? (·.address == a) = none := by simp
    simp only [hx, if_true, hnone]
    exact (Fin.ext (by simpa [Amount.isZero] using hx)).symm
  · obtain ⟨m, hm⟩ := Option.isSome_iff_exists.1 h
    have hfind : (i.minters.map fun m => if m.address = a then { m with allowance := x } else m).find?
        (·.address == a) = some { m with allowance := x } := by
      have hpred : ((·.address == a) ∘ fun m : Minter => if m.address = a then { m with allowance := x } else m) =
          (·.address == a) := by
        funext m
        simp only [Function.comp_apply]
        split <;> rfl
      have hma : m.address = a := by simpa using List.find?_some hm
      rw [List.find?_map, hpred, show i.minters.find? (·.address == a) = some m from hm]
      simp [hma]
    simp only [hx, Bool.false_eq_true, if_false, hfind]

theorem allowanceOf_writeAllowance_of_ne (h : b ≠ a) : (i.writeAllowance a x).allowanceOf b = i.allowanceOf b := by
  unfold Issuer.writeAllowance
  by_cases hx : x.isZero = true
  · refine allowanceOf_of_find ?_
    simp only [hx, if_true]
    rw [List.find?_filter]
    congr 1
    funext m
    by_cases hm : m.address = b
    · simp [hm, h]
    · simp [hm]
  · simp only [hx, Bool.false_eq_true, if_false]
    have hpred : ((·.address == b) ∘ fun m : Minter => if m.address = a then { m with allowance := x } else m) =
        (·.address == b) := by
      funext m
      simp only [Function.comp_apply]
      split <;> rfl
    unfold allowanceOf minter
    rw [List.find?_map, hpred]
    cases hfind : i.minters.find? (·.address == b) with
    | none => rfl
    | some m =>
      have hmb : m.address = b := by simpa using List.find?_some hfind
      have hne : ¬ m.address = a := fun hma => h (hmb.symm.trans hma)
      simp [hne]

theorem allowanceOf_spendAllowance (h : i.spendAllowance a x = some j) :
    (j.allowanceOf a).val + x.val = (i.allowanceOf a).val := by
  unfold Issuer.spendAllowance at h
  split at h
  · cases h
  · rename_i m hm
    split at h
    · cases h
    · rename_i left hleft
      cases h
      obtain ⟨hle, hval⟩ := Amount.checkedSub_eq_ok.1 hleft
      have hi : i.allowanceOf a = m.allowance := by simp [allowanceOf, hm]
      rw [allowanceOf_writeAllowance (by simp [hm]), hi]
      omega

theorem allowanceOf_spendAllowance_of_ne (hb : b ≠ a) (h : i.spendAllowance a x = some j) :
    j.allowanceOf b = i.allowanceOf b := by
  unfold Issuer.spendAllowance at h
  split at h
  · cases h
  · split at h
    · cases h
    · cases h
      exact allowanceOf_writeAllowance_of_ne hb

theorem allowanceOf_setMinter_of_ne (hb : b ≠ a) (h : i.setMinter a x = .ok j) : j.allowanceOf b = i.allowanceOf b := by
  unfold Issuer.setMinter at h
  split at h
  · cases h
    exact allowanceOf_writeAllowance_of_ne hb
  · split_ifs at h
    · cases h
      rfl
    · cases h
      refine allowanceOf_of_find ?_
      have hnew : ¬ (({ address := a, allowance := x } : Minter).address == b) = true := by simpa using hb.symm
      generalize ({ address := a, allowance := x } : Minter) = new at hnew ⊢
      dsimp only
      induction i.minters with
      | nil => simp [hnew]
      | cons m rest ih =>
        rw [List.orderedInsert]
        split
        · exact List.find?_cons_of_neg hnew
        · simp only [List.find?_cons, ih]

end Issuer

end AfroLink
