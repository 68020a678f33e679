import AfroLink.Base.Coalition
import AfroLink.Consensus.Lemmas.Power

/-!
# Measures of decentralisation

The fewest validators, and the fewest countries, that can stall the chain or decide for it.
-/

namespace AfroLink

/-! ## Measuring -/

def BPS : ℕ := 10000

/-- The walk of `min_coalition` over the powers, largest first. -/
def coalitionFrom (reached : ℕ → Bool) : List U64 → (index sum : ℕ) → ℕ
  | [], _, _ => 0
  | power :: rest, index, sum =>
    let sum := min (sum + power.val) (2 ^ 128 - 1)
    if reached sum then index + 1 else coalitionFrom reached rest (index + 1) sum

def minCoalition (powers : List U64) (reached : ℕ → Bool) : ℕ :=
  coalitionFrom reached (powers.insertionSort fun a b => b ≤ a) 0 0

def minCoalitionAbove (powers : List U64) (ceiling : U64) : ℕ := minCoalition powers fun sum => ceiling.val < sum

def minCoalitionAtLeast (powers : List U64) (target : U64) : ℕ := minCoalition powers fun sum => target.val ≤ sum

def addPower (country : CountryCode) (power : U64) : List (CountryCode × U64) → List (CountryCode × U64)
  | [] => [(country, power)]
  | (c, p) :: rest => if c = country then (c, p.saturatingAdd power) :: rest else (c, p) :: addPower country power rest

def countryPowers (validators : List Validator) : List (CountryCode × U64) :=
  validators.foldl (fun pairs v => addPower v.country v.votingPower pairs) []

def powerByCountry (set : ValidatorSet) : List U64 := (countryPowers set.validators).map (·.2)

def maxShareBps (powers : List U64) (total : U64) : ℕ :=
  if total = 0 then 0 else min ((powers.foldl max 0).val * BPS / total.val) (2 ^ 32 - 1)

def hhi (powers : List U64) (total : U64) : ℕ :=
  if total = 0 then 0
  else min ((powers.map fun p => (p.val * BPS / total.val) ^ 2).sum / BPS) (2 ^ 32 - 1)

structure Decentralization where
  validators : ℕ
  totalPower : U64
  nakamotoHalt : ℕ
  nakamotoControl : ℕ
  maxValidatorShareBps : U32
  stakeHhi : ℕ
  countries : ℕ
  maxCountryShareBps : ℕ
  countryNakamotoHalt : ℕ
  countryNakamotoControl : ℕ

def Decentralization.measure (set : ValidatorSet) : Decentralization :=
  let total := set.totalPower
  let byzantineCeiling := set.maxByzantinePower
  let quorum := set.quorumThreshold
  let validatorPowers := set.validators.map (·.votingPower)
  let countryPowers := powerByCountry set
  { validators := set.validators.length
    totalPower := total
    nakamotoHalt := minCoalitionAbove validatorPowers byzantineCeiling
    nakamotoControl := minCoalitionAtLeast validatorPowers quorum
    maxValidatorShareBps := set.maxSingleShareBps
    stakeHhi := hhi validatorPowers total
    countries := countryPowers.length
    maxCountryShareBps := maxShareBps countryPowers total
    countryNakamotoHalt := minCoalitionAbove countryPowers byzantineCeiling
    countryNakamotoControl := minCoalitionAtLeast countryPowers quorum }

/-! ## The walk finds the least coalition -/

theorem coalitionFrom_spec {target sum : ℕ} {l : List U64} (index : ℕ) (hfits : sum + (l.map (·.val)).sum < 2 ^ 128)
    (hsum : sum < target) (htarget : target ≤ sum + (l.map (·.val)).sum) :
    ∃ k ≤ l.length, coalitionFrom (target ≤ ·) l index sum = index + k ∧ target ≤ sum + ((l.take k).map (·.val)).sum ∧
      ∀ j < k, sum + ((l.take j).map (·.val)).sum < target := by
  induction l generalizing index sum with
  | nil => exact absurd htarget (not_le.2 hsum)
  | cons power rest ih =>
    rw [List.map_cons, List.sum_cons, ← Nat.add_assoc] at hfits htarget
    have hmin : min (sum + power.val) (2 ^ 128 - 1) = sum + power.val := by omega
    rw [coalitionFrom, hmin]
    by_cases hreached : target ≤ sum + power.val
    · refine ⟨1, by simp, by simp [hreached], by simpa using hreached, fun j hj => ?_⟩
      simpa [Nat.lt_one_iff.1 hj] using hsum
    · obtain ⟨k, hk, heq, hreach, hleast⟩ := ih (index + 1) hfits (not_le.1 hreached) htarget
      refine ⟨k + 1, by simpa using hk, ?_, by simpa [Nat.add_assoc] using hreach, fun j hj => ?_⟩
      · rw [if_neg (by simpa using hreached), heq]
        omega
      · cases j with
        | zero => simpa using hsum
        | succ j => simpa [Nat.add_assoc] using hleast j (by omega)

theorem minCoalition_isLeast {ι : Type} [DecidableEq ι] {E : Electorate ι} {l : List ι} {power : ι → U64}
    (hnodup : l.Nodup) (hmembers : l.toFinset = E.members) (hpower : ∀ i ∈ l, (power i).val = E.weight i)
    (hfits : E.total < 2 ^ 128) {target : ℕ} (hpos : 0 < target) (htarget : target ≤ E.total) :
    IsLeast (E.coalitions target) (minCoalition (l.map power) (target ≤ ·)) := by
  let sorted := l.insertionSort fun a b => power b ≤ power a
  have hperm : sorted.Perm l := List.perm_insertionSort _ l
  have hmem : ∀ i ∈ sorted, (power i).val = E.weight i := fun i hi => hpower i (hperm.mem_iff.1 hi)
  have hsorted : sorted.Pairwise fun a b => power b ≤ power a := by
    have : Std.Total fun a b : ι => power b ≤ power a := ⟨fun a b => le_total _ _⟩
    have : IsTrans ι fun a b => power b ≤ power a := ⟨fun _ _ _ h h' => h'.trans h⟩
    exact List.pairwise_insertionSort _ l
  have hweights : ∀ part ⊆ sorted, ((part.map power).map (·.val)).sum = (part.map E.weight).sum := fun part hpart => by
    rw [List.map_map]
    exact congrArg _ (List.map_congr_left fun i hi => hmem i (hpart hi))
  have htotal : ((sorted.map power).map (·.val)).sum = E.total := by
    rw [hweights _ (List.Subset.refl _), (hperm.map _).sum_eq, Electorate.total, Electorate.weightOf, ← hmembers,
      List.sum_toFinset _ hnodup]
  have hsort : (l.map power).insertionSort (fun a b => b ≤ a) = sorted.map power :=
    (List.map_insertionSort (fun a b => power b ≤ power a) (fun a b => b ≤ a) power l fun _ _ _ _ => Iff.rfl).symm
  rw [minCoalition, hsort]
  have hfits' : 0 + ((sorted.map power).map (·.val)).sum < 2 ^ 128 := by omega
  obtain ⟨k, hk, heq, hreach, hleast⟩ := coalitionFrom_spec 0 hfits' hpos (by omega)
  rw [heq, Nat.zero_add]
  have htake : ∀ j, (((sorted.map power).take j).map (·.val)).sum = ((sorted.take j).map E.weight).sum := fun j => by
    rw [← List.map_take, hweights _ (List.take_subset j _)]
  simp only [htake, Nat.zero_add] at hreach hleast
  rw [List.length_map] at hk
  refine Electorate.isLeast_coalitions (hperm.nodup_iff.2 hnodup) ?_ ?_ hk hreach hleast
  · rw [← hmembers]
    exact List.toFinset_eq_of_perm _ _ hperm
  · refine hsorted.imp_of_mem fun ha hb h => ?_
    rw [← hmem _ ha, ← hmem _ hb]
    exact h

/-! ## Countries -/

/-- The power of the validators of a country. -/
def powerIn (l : List Validator) (country : CountryCode) : ℕ :=
  ((l.filter (·.country = country)).map (·.votingPower.val)).sum

/-- The countries, each with the power of all its validators. -/
def ValidatorSet.byCountry (vs : ValidatorSet) : Electorate CountryCode where
  members := (vs.validators.map (·.country)).toFinset
  weight := powerIn vs.validators

theorem powerIn_append (l : List Validator) (v : Validator) (c : CountryCode) :
    powerIn (l ++ [v]) c = powerIn l c + if c = v.country then v.votingPower.val else 0 := by
  by_cases hc : v.country = c
  · simp [powerIn, List.filter_append, hc]
  · simp [powerIn, List.filter_append, hc, Ne.symm hc]

theorem sum_powerIn {l : List Validator} {F : Finset CountryCode} (h : ∀ v ∈ l, v.country ∈ F) :
    ∑ c ∈ F, powerIn l c = (l.map (·.votingPower.val)).sum := by
  induction l using List.reverseRecOn with
  | nil => simp [powerIn]
  | append_singleton l v ih =>
    have hv : v.country ∈ F := h v (by simp)
    simp only [powerIn_append, Finset.sum_add_distrib, Finset.sum_ite_eq', hv, if_true]
    rw [ih fun w hw => h w (by simp [hw])]
    simp

theorem ValidatorSet.byCountry_total (vs : ValidatorSet) : vs.byCountry.total = vs.totalPower.val := by
  rw [vs.total]
  exact sum_powerIn fun v hv => List.mem_toFinset.2 (List.mem_map_of_mem hv)

theorem powerIn_eq_zero {l : List Validator} {c : CountryCode} (h : c ∉ l.map (·.country)) : powerIn l c = 0 := by
  have hnone : l.filter (·.country = c) = [] := by
    refine List.filter_eq_nil_iff.2 fun v hv heq => h ?_
    exact List.mem_map.2 ⟨v, hv, of_decide_eq_true heq⟩
  rw [powerIn, hnone]
  rfl

theorem addPower_map {country : CountryCode} {power : U64} {f : CountryCode → U64} {keys : List CountryCode}
    (hnodup : keys.Nodup) (hf : country ∉ keys → f country = 0) :
    addPower country power (keys.map fun c => (c, f c)) =
      (if country ∈ keys then keys else keys ++ [country]).map fun c =>
        (c, Function.update f country ((f country).saturatingAdd power) c) := by
  induction keys with
  | nil =>
    have hpower : Fin.saturatingAdd 0 power = power := Fin.ext (by simp [Fin.saturatingAdd_val]; omega)
    simp [addPower, hf, hpower]
  | cons c rest ih =>
    obtain ⟨hfirst, hrest⟩ := List.nodup_cons.1 hnodup
    rw [List.map_cons, addPower]
    split
    · rename_i hc
      subst hc
      have hsame : ∀ d ∈ rest, Function.update f c ((f c).saturatingAdd power) d = f d := by
        intro d hd
        refine Function.update_of_ne ?_ _ _
        rintro rfl
        exact hfirst hd
      simpa using fun d hd => (hsame d hd).symm
    · rename_i hc
      have hmem : country ∈ c :: rest ↔ country ∈ rest := by simp [Ne.symm hc]
      rw [ih hrest fun h => hf (hmem.not.2 h)]
      simp only [hmem]
      split <;> simp [hc]

theorem countryPowers_eq {l : List Validator} (hfits : (l.map (·.votingPower.val)).sum < 2 ^ 64) :
    ∃ (keys : List CountryCode) (f : CountryCode → U64), keys.Nodup ∧ (∀ c, c ∈ keys ↔ c ∈ l.map (·.country)) ∧
      (∀ c, (f c).val = powerIn l c) ∧ countryPowers l = keys.map fun c => (c, f c) := by
  induction l using List.reverseRecOn with
  | nil => exact ⟨[], fun _ => 0, List.nodup_nil, fun _ => Iff.rfl, fun _ => rfl, rfl⟩
  | append_singleton l v ih =>
    have hsum : ((l ++ [v]).map (·.votingPower.val)).sum = (l.map (·.votingPower.val)).sum + v.votingPower.val := by simp
    have hle : powerIn l v.country ≤ (l.map (·.votingPower.val)).sum :=
      (List.filter_sublist.map _).sum_le_sum fun _ _ => Nat.zero_le _
    obtain ⟨keys, f, hnodup, hkeys, hf, hpowers⟩ := ih (by omega)
    have hzero : v.country ∉ keys → f v.country = 0 := fun h =>
      Fin.ext ((hf _).trans (powerIn_eq_zero ((hkeys _).not.1 h)))
    have hstep : countryPowers (l ++ [v]) = addPower v.country v.votingPower (keys.map fun c => (c, f c)) := by
      rw [countryPowers, List.foldl_append, ← countryPowers, hpowers]
      rfl
    refine ⟨_, _, ?_, fun c => ?_, fun c => ?_, hstep.trans (addPower_map hnodup hzero)⟩
    · split
      · exact hnodup
      · rename_i hnew
        rw [← List.concat_eq_append]
        exact hnodup.concat hnew
    · rw [List.map_append, List.mem_append, ← hkeys]
      split
      · rename_i hold
        simp only [List.map_cons, List.map_nil, List.mem_singleton, iff_self_or]
        rintro rfl
        exact hold
      · simp
    · rw [powerIn_append]
      rcases eq_or_ne c v.country with rfl | hne
      · rw [Function.update_self, Fin.saturatingAdd_val, hf, if_pos rfl]
        omega
      · rw [Function.update_of_ne hne, hf, if_neg hne, Nat.add_zero]

/-! ## Least numbers -/

theorem ValidatorSet.total_pos (vs : ValidatorSet) : 0 < vs.totalPower.val := by
  obtain ⟨v, hv⟩ := List.exists_mem_of_ne_nil _ vs.nonempty
  have hle : v.votingPower.val ≤ vs.totalPower.val := by
    rw [vs.total]
    exact List.single_le_sum (fun _ _ => Nat.zero_le _) _ (List.mem_map_of_mem hv)
  exact (Fin.lt_def.1 (vs.positive v hv)).trans_le hle

/-- Both numbers, for any way to put the power of a set into one hand or another. -/
theorem least_of_electorate {ι : Type} [DecidableEq ι] {vs : ValidatorSet} {E : Electorate ι} {l : List ι}
    {power : ι → U64} (hnodup : l.Nodup) (hmembers : l.toFinset = E.members)
    (hpower : ∀ i ∈ l, (power i).val = E.weight i) (htotal : E.total = vs.totalPower.val) :
    IsLeast (E.blockades vs.quorumThreshold.val) (minCoalitionAbove (l.map power) vs.maxByzantinePower) ∧
      IsLeast (E.coalitions vs.quorumThreshold.val) (minCoalitionAtLeast (l.map power) vs.quorumThreshold) := by
  have hpos := vs.total_pos
  have hlt := vs.totalPower.isLt
  have hthreshold : E.threshold = vs.quorumThreshold.val := by
    rw [← vs.electorate_threshold, Electorate.threshold, Electorate.threshold, htotal, vs.electorate_total]
  have htolerance : E.tolerance = vs.maxByzantinePower.val := by
    rw [← vs.electorate_tolerance, Electorate.tolerance, Electorate.tolerance, htotal, vs.electorate_total]
  have hleast : ∀ {target}, 0 < target → target ≤ E.total →
      IsLeast (E.coalitions target) (minCoalition (l.map power) (target ≤ ·)) := fun htarget hle =>
    minCoalition_isLeast hnodup hmembers hpower (by omega) htarget hle
  rw [← hthreshold, Electorate.blockades_threshold (htotal ▸ hpos), htolerance]
  unfold Electorate.threshold Electorate.tolerance at *
  refine ⟨hleast (Nat.succ_pos _) (by omega), ?_⟩
  rw [minCoalitionAtLeast, ← hthreshold]
  exact hleast (Nat.succ_pos _) (by omega)

/-- The four numbers are the least sizes of sets of validators, or of countries, that stall the chain by staying away
or reach a quorum by themselves. -/
theorem nakamoto_exact (vs : ValidatorSet) :
    IsLeast (vs.electorate.blockades vs.quorumThreshold.val) (Decentralization.measure vs).nakamotoHalt ∧
      IsLeast (vs.electorate.coalitions vs.quorumThreshold.val) (Decentralization.measure vs).nakamotoControl ∧
      IsLeast (vs.byCountry.blockades vs.quorumThreshold.val) (Decentralization.measure vs).countryNakamotoHalt ∧
      IsLeast (vs.byCountry.coalitions vs.quorumThreshold.val) (Decentralization.measure vs).countryNakamotoControl := by
  obtain ⟨keys, f, hnodup, hkeys, hf, hpowers⟩ := countryPowers_eq (vs.total ▸ vs.totalPower.isLt)
  have hmembers : keys.toFinset = vs.byCountry.members := by
    ext c
    simpa [ValidatorSet.byCountry] using hkeys c
  have hvalidators := least_of_electorate vs.addresses_nodup rfl (fun _ _ => rfl) vs.electorate_total
  have hcountries := least_of_electorate hnodup hmembers (fun c _ => hf c) vs.byCountry_total
  have haddresses : (vs.validators.map (·.address)).map vs.powerOf = vs.validators.map (·.votingPower) := by
    rw [List.map_map]
    exact List.map_congr_left fun v hv => ValidatorSet.powerOf_of_mem hv
  have hnames : keys.map f = powerByCountry vs := by
    rw [powerByCountry, hpowers, List.map_map]
    rfl
  rw [haddresses] at hvalidators
  rw [hnames] at hcountries
  exact ⟨hvalidators.1, hvalidators.2, hcountries⟩

end AfroLink
