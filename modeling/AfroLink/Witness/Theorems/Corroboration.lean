import AfroLink.Crypto.Sample
import AfroLink.Witness.Policy

/-!
# Corroboration is exact

The checkpoint returned depends on the set of observations only: the order of the answers, and how often a witness
repeated one, make no difference.
-/

namespace AfroLink

section

variable {α β : Type} [DecidableEq α]

variable {values : List α}

theorem nodup_pushNew {value : α} (h : values.Nodup) : (pushNew values value).Nodup := by
  unfold pushNew
  split
  · exact h
  · rename_i hnew
    simpa [List.nodup_append] using ⟨h, fun a ha heq => hnew (heq ▸ ha)⟩

theorem mem_pushNew {value x : α} : x ∈ pushNew values value ↔ x ∈ values ∨ x = value := by
  unfold pushNew
  split
  · rename_i hold
    exact ⟨.inl, fun h => h.elim id fun heq => heq ▸ hold⟩
  · simp

theorem nodup_foldl_pushNew (f : β → α) (l : List β) (h : values.Nodup) :
    (l.foldl (fun vs b => pushNew vs (f b)) values).Nodup := by
  induction l generalizing values with
  | nil => exact h
  | cons b l ih => exact ih (nodup_pushNew h)

theorem mem_foldl_pushNew (f : β → α) (l : List β) {x : α} :
    x ∈ l.foldl (fun vs b => pushNew vs (f b)) values ↔ x ∈ values ∨ ∃ b ∈ l, f b = x := by
  induction l generalizing values with
  | nil => simp
  | cons b l ih =>
    rw [List.foldl_cons, ih, mem_pushNew]
    simp [or_assoc, eq_comm]

theorem length_foldl_pushNew (f : β → α) (l : List β) :
    (l.foldl (fun vs b => pushNew vs (f b)) []).length = (l.map f).toFinset.card := by
  rw [← List.toFinset_card_of_nodup (nodup_foldl_pushNew f l .nil)]
  congr 1
  ext x
  rw [List.mem_toFinset, mem_foldl_pushNew]
  simp

end

def observedAt (observations : List Observation) (height : Height) : Finset Observation :=
  observations.toFinset.filter fun o => o.height = height

/-- At a height, enough distinct logs in enough distinct countries reported a block. -/
def Policy.Corroborated (policy : Policy) (observations : List Observation) (height : Height) : Prop :=
  policy.minWitnesses ≤ ((observedAt observations height).image Observation.log).card ∧
    policy.minCountries ≤ ((observedAt observations height).image Observation.country).card

/-- Two observations at one height name different blocks. -/
def Split (observations : List Observation) : Prop :=
  ∃ a ∈ observations, ∃ b ∈ observations, a.height = b.height ∧ a.blockId ≠ b.blockId

variable {chainId : ChainId} {observations : List Observation} {policy : Policy} {height : Height}

theorem length_logsAt :
    (logsAt observations height).length = ((observedAt observations height).image Observation.log).card := by
  unfold logsAt
  rw [length_foldl_pushNew]
  congr 1
  ext x
  simp [observedAt, and_assoc]

theorem length_countriesAt :
    (countriesAt observations height).length = ((observedAt observations height).image Observation.country).card := by
  unfold countriesAt
  rw [length_foldl_pushNew]
  congr 1
  ext x
  simp [observedAt, and_assoc]

theorem satisfiableBy_at :
    policy.satisfiableBy (logsAt observations height).length (countriesAt observations height).length = true ↔
      policy.Corroborated observations height := by
  simp [Policy.satisfiableBy, length_logsAt, length_countriesAt, Policy.Corroborated]

theorem Policy.Corroborated.exists_observation (h : policy.Corroborated observations height)
    (hpos : 0 < policy.minWitnesses) : ∃ o ∈ observations, o.height = height := by
  have hcard : 0 < ((observedAt observations height).image Observation.log).card := hpos.trans_le h.1
  obtain ⟨o, ho⟩ := Finset.image_nonempty.1 (Finset.card_pos.1 hcard)
  exact ⟨o, by simpa [observedAt] using ho⟩

theorem splitView_eq_none_iff : splitView observations = none ↔ ¬ Split observations := by
  induction observations with
  | nil => simp [splitView, Split]
  | cons a rest ih =>
    have hcons : Split (a :: rest) ↔ (∃ b ∈ rest, a.height = b.height ∧ a.blockId ≠ b.blockId) ∨ Split rest := by
      constructor
      · rintro ⟨x, hx, y, hy, hheight, hblock⟩
        rcases List.mem_cons.1 hx with rfl | hxrest <;> rcases List.mem_cons.1 hy with rfl | hyrest
        · exact absurd rfl hblock
        · exact .inl ⟨y, hyrest, hheight, hblock⟩
        · exact .inl ⟨x, hxrest, hheight.symm, hblock.symm⟩
        · exact .inr ⟨x, hxrest, y, hyrest, hheight, hblock⟩
      · rintro (⟨b, hb, hheight, hblock⟩ | ⟨x, hx, y, hy, hheight, hblock⟩)
        · exact ⟨a, .head _, b, .tail _ hb, hheight, hblock⟩
        · exact ⟨x, .tail _ hx, y, .tail _ hy, hheight, hblock⟩
    rw [hcons, not_or, ← ih, splitView]
    by_cases hany : ∃ b ∈ rest, a.height = b.height ∧ a.blockId ≠ b.blockId
    · simp [hany]
    · simp [hany]

/-! ## The loop over the candidates -/

namespace Corroboration

/-- After the candidates `seen`: the best is the highest of them that is corroborated. -/
structure Inv (chainId : ChainId) (observations : List Observation) (policy : Policy) (seen : List Observation)
    (s : Corroboration) : Prop where
  found_of : ∀ o ∈ seen, policy.Corroborated observations o.height → s.found = true ∧ o.height ≤ s.best.height
  best_of : s.found = true → policy.Corroborated observations s.best.height ∧
    ∃ o ∈ seen, s.best = ⟨chainId, o.height, o.blockId⟩

theorem Inv.consider {seen : List Observation} {s : Corroboration} (h : Inv chainId observations policy seen s)
    (candidate : Observation) :
    Inv chainId observations policy (seen ++ [candidate]) (s.consider chainId observations policy candidate) := by
  have hbetter : (policy.satisfiableBy (logsAt observations candidate.height).length
      (countriesAt observations candidate.height).length && (!s.found || s.best.height < candidate.height)) = true ↔
      policy.Corroborated observations candidate.height ∧ (s.found = false ∨ s.best.height < candidate.height) := by
    simp [satisfiableBy_at]
  unfold Corroboration.consider
  dsimp only
  split
  case isTrue htake =>
    obtain ⟨hcorr, hhigher⟩ := hbetter.1 htake
    constructor
    · intro o ho hoc
      refine ⟨rfl, ?_⟩
      rcases List.mem_append.1 ho with ho | ho
      · -- An earlier corroborated candidate was found, so the best so far was above it.
        obtain ⟨hfound, hle⟩ := h.found_of o ho hoc
        rcases hhigher with hnone | hlt
        · simp [hnone] at hfound
        · exact hle.trans hlt.le
      · rw [List.mem_singleton.1 ho]
    · intro _
      exact ⟨hcorr, candidate, by simp, rfl⟩
  case isFalse hkeep =>
    constructor
    · intro o ho hoc
      rcases List.mem_append.1 ho with ho | ho
      · exact h.found_of o ho hoc
      · rw [List.mem_singleton.1 ho] at hoc ⊢
        have hnot : ¬ (s.found = false ∨ s.best.height < candidate.height) := fun hor =>
          hkeep (hbetter.2 ⟨hoc, hor⟩)
        rw [not_or, Bool.not_eq_false] at hnot
        exact ⟨hnot.1, not_lt.1 hnot.2⟩
    · intro hfound
      obtain ⟨hcorr, o, ho, hbest⟩ := h.best_of hfound
      exact ⟨hcorr, o, List.mem_append_left _ ho, hbest⟩

theorem Inv.foldl {seen : List Observation} {s : Corroboration} (h : Inv chainId observations policy seen s)
    (candidates : List Observation) :
    Inv chainId observations policy (seen ++ candidates)
      (candidates.foldl (Corroboration.consider chainId observations policy) s) := by
  induction candidates generalizing seen s with
  | nil => simpa using h
  | cons candidate candidates ih =>
    have := ih (h.consider candidate)
    simpa using this

end Corroboration

open Corroboration (Inv)

theorem corroborate_of_split (chainId : ChainId) (policy : Policy) (h : Split observations) :
    ∃ height, corroborate chainId observations policy = .error (.splitView height) := by
  unfold corroborate
  cases hview : splitView observations with
  | none => exact absurd h (splitView_eq_none_iff.1 hview)
  | some height => exact ⟨height, rfl⟩

theorem corroborate_of_not_split (chainId : ChainId) (policy : Policy) (h : ¬ Split observations) :
    (∃ o ∈ observations, corroborate chainId observations policy = .ok ⟨chainId, o.height, o.blockId⟩ ∧
      policy.Corroborated observations o.height ∧
      ∀ o' ∈ observations, policy.Corroborated observations o'.height → o'.height ≤ o.height) ∨
    (∃ witnesses countries, corroborate chainId observations policy =
        .error (.notCorroborated witnesses countries policy.minWitnesses policy.minCountries)) ∧
      ∀ o ∈ observations, ¬ policy.Corroborated observations o.height := by
  have hinv : Inv chainId observations policy observations (observations.foldl
      (Corroboration.consider chainId observations policy) ⟨⟨chainId, 0, Hash32.ZERO⟩, false, 0, 0⟩) := by
    have hstart : Inv chainId observations policy [] ⟨⟨chainId, 0, Hash32.ZERO⟩, false, 0, 0⟩ :=
      ⟨by simp, by simp⟩
    simpa using hstart.foldl observations
  unfold corroborate
  rw [splitView_eq_none_iff.2 h]
  dsimp only
  split
  case isTrue hfound =>
    obtain ⟨hcorr, o, ho, hbest⟩ := hinv.best_of hfound
    rw [hbest] at hcorr
    refine .inl ⟨o, ho, by rw [hbest], hcorr, fun o' ho' hoc => ?_⟩
    simpa [hbest] using (hinv.found_of o' ho' hoc).2
  case isFalse hfound =>
    exact .inr ⟨⟨_, _, rfl⟩, fun o ho hoc => hfound (hinv.found_of o ho hoc).1⟩

theorem corroborate_eq_ok_iff (hpos : 0 < policy.minWitnesses) {c : Checkpoint} :
    corroborate chainId observations policy = .ok c ↔
      ¬ Split observations ∧ IsGreatest { h | policy.Corroborated observations h } c.height ∧
        ∃ o ∈ observations, c = ⟨chainId, o.height, o.blockId⟩ := by
  by_cases hsplit : Split observations
  · obtain ⟨height, herr⟩ := corroborate_of_split chainId policy hsplit
    simp [herr, hsplit]
  rcases corroborate_of_not_split chainId policy hsplit with
    ⟨o, ho, hok, hcorr, hmax⟩ | ⟨⟨w, n, herr⟩, hnone⟩
  · have hgreatest : IsGreatest { h | policy.Corroborated observations h } o.height := by
      refine ⟨hcorr, fun h hh => ?_⟩
      obtain ⟨o', ho', rfl⟩ := hh.exists_observation hpos
      exact hmax o' ho' hh
    rw [hok, Except.ok.injEq]
    constructor
    · rintro rfl
      exact ⟨hsplit, hgreatest, o, ho, rfl⟩
    · rintro ⟨-, hc, o', ho', rfl⟩
      have hheight : o.height = o'.height := hgreatest.unique hc
      have hblock : o.blockId = o'.blockId := by
        by_contra hne
        exact hsplit ⟨o, ho, o', ho', hheight, hne⟩
      rw [hheight, hblock]
  · constructor
    · simp [herr]
    · rintro ⟨-, hc, o, ho, rfl⟩
      exact absurd hc.1 (hnone o ho)

theorem Policy.Corroborated.congr {observations' : List Observation} (h : ∀ o, o ∈ observations' ↔ o ∈ observations) :
    policy.Corroborated observations' = policy.Corroborated observations := by
  have hset : observations'.toFinset = observations.toFinset := by
    ext o
    simp [h]
  funext height
  simp [Policy.Corroborated, observedAt, hset]

theorem Split.congr {observations' : List Observation} (h : ∀ o, o ∈ observations' ↔ o ∈ observations) :
    Split observations' ↔ Split observations := by
  simp [Split, h]

/-- `corroborate` refuses exactly the contradictory sets, returns the greatest height that meets the policy and its
block, and looks at the set of observations only. -/
theorem corroborate_exact (chainId : ChainId) (observations : List Observation) (policy : Policy)
    (hwitnesses : 0 < policy.minWitnesses) :
    ((∃ height, corroborate chainId observations policy = .error (.splitView height)) ↔ Split observations) ∧
    (¬ Split observations → (∃ h, policy.Corroborated observations h) →
      ∃ o ∈ observations, IsGreatest { h | policy.Corroborated observations h } o.height ∧
        corroborate chainId observations policy = .ok ⟨chainId, o.height, o.blockId⟩) ∧
    (¬ Split observations → (¬ ∃ h, policy.Corroborated observations h) →
      ∃ witnesses countries, corroborate chainId observations policy =
        .error (.notCorroborated witnesses countries policy.minWitnesses policy.minCountries)) ∧
    ∀ observations' : List Observation, (∀ o, o ∈ observations' ↔ o ∈ observations) →
      ∀ c, corroborate chainId observations' policy = .ok c ↔ corroborate chainId observations policy = .ok c := by
  refine ⟨⟨?_, corroborate_of_split chainId policy⟩, ?_, ?_, ?_⟩
  · rintro ⟨height, herr⟩
    by_contra hsplit
    rcases corroborate_of_not_split chainId policy hsplit with
      ⟨o, -, hok, -⟩ | ⟨⟨w, n, hnot⟩, -⟩
    · rw [hok] at herr
      cases herr
    · rw [hnot] at herr
      cases herr
  · rintro hsplit ⟨h, hh⟩
    rcases corroborate_of_not_split chainId policy hsplit with
      ⟨o, ho, hok, -⟩ | ⟨-, hnone⟩
    · exact ⟨o, ho, ((corroborate_eq_ok_iff hwitnesses).1 hok).2.1, hok⟩
    · obtain ⟨o, ho, rfl⟩ := hh.exists_observation hwitnesses
      exact absurd hh (hnone o ho)
  · intro hsplit hno
    rcases corroborate_of_not_split chainId policy hsplit with
      ⟨o, ho, -, hcorr, -⟩ | ⟨herr, -⟩
    · exact absurd ⟨_, hcorr⟩ hno
    · exact herr
  · intro observations' hmem c
    rw [corroborate_eq_ok_iff hwitnesses, corroborate_eq_ok_iff hwitnesses, Policy.Corroborated.congr hmem,
      Split.congr hmem]
    simp [hmem]

namespace Sample

def report (n : Nat) (height : Height) : Observation :=
  ⟨⟨Fin.ofNat _ n⟩, (Fin.ofNat _ n, 0), height, 7, 1, 0, 0⟩

/-- Two logs agree on height 5 and only one has seen height 9; a repeated answer and another order change nothing. -/
theorem corroborate_exact_five :
    0 < Policy.BASELINE.minWitnesses ∧
      corroborate chain [report 1 9, report 2 5, report 1 5, report 1 5] .BASELINE = .ok ⟨chain, 5, 7⟩ := by
  have hpos : 0 < Policy.BASELINE.minWitnesses := by decide
  obtain ⟨-, -, -, hsame⟩ := corroborate_exact chain [report 1 5, report 2 5, report 1 9] .BASELINE hpos
  refine ⟨hpos, (hsame _ (fun o => ?_) _).2 (by decide +kernel)⟩
  simp only [List.mem_cons, List.not_mem_nil, or_false]
  tauto

end Sample

end AfroLink
