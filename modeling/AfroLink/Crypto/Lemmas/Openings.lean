import AfroLink.Crypto.Lemmas.Merkle

/-!
# What a root of unknown leaves holds

A root need not come from a list: its maker may choose it.
-/

namespace AfroLink

namespace MerkleProof

/-- The turns from the root of `n` leaves to leaf `i`, `true` being right. -/
def turns (i n : Nat) : List Bool := (frames n i n).map not

theorem frames_split {fuel i n : Nat} (hn : 2 ≤ n) : frames (fuel + 1) i n =
    if i < splitPoint n then true :: frames fuel i (splitPoint n)
    else false :: frames fuel (i - splitPoint n) (n - splitPoint n) := by
  rw [frames]
  exact if_pos hn

theorem frames_fuel {n : Nat} : ∀ {fuel i : Nat}, n ≤ fuel → frames fuel i n = frames n i n := by
  induction n using Nat.strong_induction_on with
  | _ n ih =>
    -- both parts are shorter, so what is left of either fuel is enough for them
    have hstep : ∀ {fuel i : Nat}, n ≤ fuel → 2 ≤ n → frames fuel i n =
        if i < splitPoint n then true :: frames (splitPoint n) i (splitPoint n)
        else false :: frames (n - splitPoint n) (i - splitPoint n) (n - splitPoint n) := by
      intro fuel i hfuel hn
      obtain ⟨hpos, hlt⟩ := splitPoint_bounds hn
      obtain ⟨fuel, rfl⟩ : ∃ f, fuel = f + 1 := ⟨fuel - 1, by omega⟩
      rw [frames_split hn, ih (splitPoint n) hlt (by omega), ih (n - splitPoint n) (by omega) (by omega)]
    intro fuel i hfuel
    by_cases hn : 2 ≤ n
    · rw [hstep hfuel hn, hstep (Nat.le_refl n) hn]
    · have hone : ¬ n > 1 := by omega
      have hnil : ∀ fuel, frames fuel i n = [] := by
        intro fuel
        cases fuel with
        | zero => rfl
        | succ fuel => rw [frames, if_neg hone]
      rw [hnil, hnil]

theorem turns_left {i n : Nat} (hn : 2 ≤ n) (hi : i < splitPoint n) :
    turns i n = false :: turns i (splitPoint n) := by
  have hlt := (splitPoint_bounds hn).2
  obtain ⟨fuel, rfl⟩ : ∃ f, n = f + 1 := ⟨n - 1, by omega⟩
  rw [turns, frames_split hn, if_pos hi, frames_fuel (by omega)]
  rfl

theorem turns_right {i n : Nat} (hn : 2 ≤ n) (hi : ¬ i < splitPoint n) :
    turns i n = true :: turns (i - splitPoint n) (n - splitPoint n) := by
  have hpos := (splitPoint_bounds hn).1
  obtain ⟨fuel, rfl⟩ : ∃ f, n = f + 1 := ⟨n - 1, by omega⟩
  rw [turns, frames_split hn, if_neg hi, frames_fuel (by omega)]
  rfl

theorem leads_of_verify [Crypto] {p : MerkleProof} {root leaf : Hash32} {i n : Nat} {pairs : Set (Hash32 × Hash32)}
    (h : p.verify root leaf i n = .ok ()) (hpairs : ∀ q ∈ p.joined leaf, q ∈ pairs) :
    i < n ∧ Leads nodeHash pairs root (turns i n) leaf := by
  obtain ⟨rfl, rfl, hroot⟩ := verify_eq_ok.1 h
  obtain ⟨hindex, hlen, rfl⟩ := computeRoot_eq_ok.1 hroot
  have hleads : Leads nodeHash pairs _ (p.path.map Prod.fst) leaf := .of_climb hpairs
  rw [path_fst hlen] at hleads
  exact ⟨hindex, hleads⟩

end MerkleProof

namespace ConsistencyProof

open MerkleProof (turns turns_left turns_right)

variable [Crypto]

/-- The pairs of hashes joined on the way to the old root. -/
def oldJoinedFrom : Nat → Nat → Nat → Bool → Hash32 → List Hash32 → List (Hash32 × Hash32)
  | 0, _, _, _, _, _ => []
  | fuel + 1, m, n, isTop, knownOld, nodes =>
    if m = n then []
    else
      let k := splitPoint n
      if m ≤ k then oldJoinedFrom fuel m k isTop knownOld nodes
      else
        match (replay fuel (m - k) (n - k) false knownOld).run nodes with
        | .ok ((oldRight, _), left :: _) => (left, oldRight) :: oldJoinedFrom fuel (m - k) (n - k) false knownOld nodes
        | _ => []

/-- The pairs of hashes joined in recomputing both roots. -/
def bothJoined (p : ConsistencyProof) (oldRoot : Hash32) : List (Hash32 × Hash32) :=
  oldJoinedFrom p.newSize p.oldSize p.newSize true oldRoot p.nodes ++ p.joined oldRoot

section

variable {fuel m n : Nat} {isTop : Bool} {knownOld : Hash32} {nodes : List Hash32}

theorem oldJoinedFrom_left (hne : m ≠ n) (hle : m ≤ splitPoint n) :
    oldJoinedFrom (fuel + 1) m n isTop knownOld nodes = oldJoinedFrom fuel m (splitPoint n) isTop knownOld nodes := by
  rw [oldJoinedFrom, if_neg hne]
  exact if_pos hle

theorem oldJoinedFrom_right {oldRight newRight left : Hash32} {rest : List Hash32} (hne : m ≠ n)
    (hlt : ¬ m ≤ splitPoint n) (h : (replay fuel (m - splitPoint n) (n - splitPoint n) false knownOld).run nodes =
      .ok ((oldRight, newRight), left :: rest)) :
    oldJoinedFrom (fuel + 1) m n isTop knownOld nodes =
      (left, oldRight) :: oldJoinedFrom fuel (m - splitPoint n) (n - splitPoint n) false knownOld nodes := by
  simp only [oldJoinedFrom, if_neg hne, if_neg hlt, h]

end

variable {pairs : Set (Hash32 × Hash32)} (hinj : Set.InjOn (fun p : Hash32 × Hash32 => nodeHash p.1 p.2) pairs)
include hinj

theorem leads_of_replay : ∀ fuel m n isTop knownOld nodes old new rest i x, n ≤ fuel → i < m → m ≤ n →
    (∀ q ∈ oldJoinedFrom fuel m n isTop knownOld nodes, q ∈ pairs) →
    (∀ q ∈ joinedFrom fuel m n isTop knownOld nodes, q ∈ pairs) →
    (replay fuel m n isTop knownOld).run nodes = .ok ((old, new), rest) →
    Leads nodeHash pairs old (turns i m) x → Leads nodeHash pairs new (turns i n) x := by
  intro fuel
  induction fuel with
  | zero =>
    intro m n _ _ _ _ _ _ i _ hfuel hi hm
    omega
  | succ fuel ih =>
    intro m n isTop knownOld nodes old new rest i x hfuel hi hm holds hnews hrun hleads
    by_cases hne : m = n
    · subst hne
      rwa [← replay_self hrun]
    have hn : 2 ≤ n := by omega
    obtain ⟨hpos, hlt⟩ := splitPoint_bounds hn
    by_cases hside : m ≤ splitPoint n
    · -- the old tree is in the left part of the new one
      obtain ⟨newLeft, right, hleft, rfl, hjoined⟩ := replay_left_inv hne hside hrun
      rw [oldJoinedFrom_left hne hside] at holds
      rw [hjoined] at hnews
      have hbelow := ih m (splitPoint n) isTop knownOld nodes old newLeft (right :: rest) i x (by omega) hi hside
        holds (fun q hq => hnews q (.tail _ hq)) hleft hleads
      rw [turns_left hn (hi.trans_le hside)]
      exact .left (hnews _ (.head _)) hbelow
    · -- both trees have the left part, and the old one a beginning of the right part
      obtain ⟨left, oldRight, newRight, hright, rfl, rfl, hjoined⟩ := replay_right_inv hne hside hrun
      rw [oldJoinedFrom_right hne hside hright] at holds
      rw [hjoined] at hnews
      have hsplit := splitPoint_between hn (not_le.1 hside) hm
      have hpair := holds _ (.head _)
      by_cases hindex : i < splitPoint n
      · rw [turns_left (by omega) (hsplit ▸ hindex), hsplit] at hleads
        rw [turns_left hn hindex]
        exact .left (hnews _ (.head _)) (hleads.below_left hinj hpair)
      · rw [turns_right (by omega) (hsplit ▸ hindex), hsplit] at hleads
        rw [turns_right hn hindex]
        refine .right (hnews _ (.head _)) ?_
        exact ih (m - splitPoint n) (n - splitPoint n) false knownOld nodes oldRight newRight (left :: rest) _ x
          (by omega) (by omega) (by omega) (fun q hq => holds q (.tail _ hq)) (fun q hq => hnews q (.tail _ hq))
          hright (hleads.below_right hinj hpair)

theorem leads_of_verify {p : ConsistencyProof} {oldRoot newRoot x : Hash32} {i m n : Nat}
    (h : p.verify oldRoot newRoot m n = .ok ()) (hpairs : ∀ q ∈ p.bothJoined oldRoot, q ∈ pairs) (hi : i < m)
    (hleads : Leads nodeHash pairs oldRoot (turns i m) x) :
    i < n ∧ Leads nodeHash pairs newRoot (turns i n) x := by
  obtain ⟨rfl, rfl, hle, hcases⟩ := verify_eq_ok.1 h
  refine ⟨hi.trans_le hle, ?_⟩
  cases hcases with
  | inl hdegenerate =>
    obtain ⟨hsize, -, hroot⟩ := hdegenerate
    have hzero : p.oldSize ≠ 0 := by omega
    rw [if_neg hzero] at hroot
    rw [← hroot, ← hsize.resolve_left hzero]
    exact hleads
  | inr hreplay =>
    refine leads_of_replay hinj _ _ _ _ _ _ _ _ _ _ _ (Nat.le_refl _) hi hle (fun q hq => ?_) (fun q hq => ?_)
      hreplay.2 hleads
    · exact hpairs q (List.mem_append_left _ hq)
    · exact hpairs q (List.mem_append_right _ hq)

end ConsistencyProof

end AfroLink
