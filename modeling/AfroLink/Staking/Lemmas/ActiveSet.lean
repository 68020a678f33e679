import AfroLink.Consensus.Lemmas.Power
import AfroLink.Staking.Lemmas.Books
import AfroLink.State.Lemmas.Records

/-!
# The active set

Which bonds are chosen, that capping keeps every power above zero, and when the chosen bonds make a validator set:
their keys have different addresses and their powers fit into a word together.
-/

namespace AfroLink

/-! ## Validator sets -/

variable {l : List Validator} {powers : List U64} {maxBps : U32}

theorem checkedTotal_eq_some {acc t : U64} :
    checkedTotal l acc = some t ↔ t.val = acc.val + (l.map fun v => v.votingPower.val).sum := by
  induction l generalizing acc with
  | nil => simp [checkedTotal, Fin.ext_iff, eq_comm]
  | cons v vs ih =>
    simp only [checkedTotal, Option.bind_eq_some_iff, Fin.checkedAdd_eq_some, List.map_cons, List.sum_cons, ih]
    constructor
    · rintro ⟨a, ha, ht⟩
      omega
    · intro ht
      have := t.isLt
      exact ⟨⟨acc.val + v.votingPower.val, by omega⟩, rfl, by simp only; omega⟩

theorem sortByAddress_perm (l : List Validator) : (sortByAddress l).Perm l :=
  List.perm_insertionSort _ l

theorem isChain_sortByAddress :
    ((sortByAddress l).IsChain fun a b => a.address ≠ b.address) ↔ (l.map (·.address)).Nodup := by
  have hperm := (sortByAddress_perm l).map (·.address)
  rw [← hperm.nodup_iff, List.Nodup, List.pairwise_map]
  constructor
  · intro h
    exact (pairwise_lt_of_chain (ValidatorSet.sortByAddress_sorted l) h).imp fun hlt => hlt.ne
  · exact List.Pairwise.isChain

theorem ValidatorSet.validators_of_new {set : ValidatorSet} (h : new l = .ok set) :
    set.validators = sortByAddress l := by
  unfold new at h
  split at h
  · cases h
  split at h
  · cases h
  split at h
  · cases h
  split at h
  · cases h
  · cases h
    rfl

theorem ValidatorSet.new_eq_ok :
    (∃ set, new l = .ok set) ↔ l ≠ [] ∧ (∀ v ∈ l, 0 < v.votingPower) ∧ (l.map (·.address)).Nodup ∧
      (l.map fun v => v.votingPower.val).sum < 2 ^ 64 := by
  have hsum : ((sortByAddress l).map fun v => v.votingPower.val).sum = (l.map fun v => v.votingPower.val).sum :=
    ((sortByAddress_perm l).map _).sum_eq
  constructor
  · rintro ⟨set, h⟩
    have hval := validators_of_new h
    have hmem : ∀ v, v ∈ set.validators ↔ v ∈ l := fun v => by rw [hval, (sortByAddress_perm l).mem_iff]
    refine ⟨?_, fun v hv => set.positive v ((hmem v).2 hv), ?_, ?_⟩
    · rintro rfl
      exact set.nonempty hval
    · rw [← ((sortByAddress_perm l).map (·.address)).nodup_iff, ← hval]
      exact set.addresses_nodup
    · rw [← hsum, ← hval, ← set.total]
      exact set.totalPower.isLt
  · rintro ⟨hne, hpos, hnodup, hfits⟩
    have hzero : ¬ (l.any fun v => v.votingPower == 0) = true := by
      simp only [List.any_eq_true, beq_iff_eq, not_exists, not_and]
      exact fun v hv => (hpos v hv).ne'
    have hchain := isChain_sortByAddress.2 hnodup
    obtain ⟨t, ht⟩ : ∃ t, checkedTotal (sortByAddress l) 0 = some t :=
      ⟨⟨(l.map fun v => v.votingPower.val).sum, hfits⟩, checkedTotal_eq_some.2 (by simp [hsum])⟩
    unfold new
    rw [dif_neg hne, dif_neg hzero, dif_neg (not_not.2 hchain)]
    split
    · next hnone => simp [ht] at hnone
    · exact ⟨_, rfl⟩

/-! ## Capping -/

theorem length_capPass (maxBps : U32) (powers : List U64) : (capPass maxBps powers).length = powers.length := by
  simp [capPass]

theorem capPass_pos (h : ∀ p ∈ powers, 0 < p) : ∀ p ∈ capPass maxBps powers, 0 < p := by
  intro p hp
  obtain ⟨q, hq, rfl⟩ := List.mem_map.1 hp
  refine lt_min (h q hq) ?_
  rw [Fin.lt_def]
  simp

theorem capLoop_keeps (n : ℕ) (h : ∀ p ∈ powers, 0 < p) :
    (capLoop maxBps n powers).length = powers.length ∧ ∀ p ∈ capLoop maxBps n powers, 0 < p := by
  induction n generalizing powers with
  | zero => exact ⟨rfl, h⟩
  | succ n ih =>
    unfold capLoop
    dsimp only
    split
    · exact ⟨rfl, h⟩
    · obtain ⟨hlength, hpos⟩ := ih (capPass_pos h)
      exact ⟨hlength.trans (length_capPass maxBps powers), hpos⟩

theorem sum_capPass_le (maxBps : U32) (powers : List U64) :
    ((capPass maxBps powers).map (·.val)).sum ≤ (powers.map (·.val)).sum := by
  unfold capPass
  dsimp only
  rw [List.map_map]
  exact List.sum_le_sum fun p _ => Fin.le_def.1 (min_le_left p _)

theorem sum_capLoop_le (maxBps : U32) (n : ℕ) (powers : List U64) :
    ((capLoop maxBps n powers).map (·.val)).sum ≤ (powers.map (·.val)).sum := by
  induction n generalizing powers with
  | zero => exact le_rfl
  | succ n ih =>
    unfold capLoop
    dsimp only
    split
    · exact le_rfl
    · exact (ih _).trans (sum_capPass_le maxBps powers)

theorem sum_capConcentration_le (maxBps : U32) (powers : List U64) :
    ((capConcentration powers maxBps).map (·.val)).sum ≤ (powers.map (·.val)).sum := by
  unfold capConcentration
  split
  · exact le_rfl
  · exact sum_capLoop_le maxBps _ powers

theorem capConcentration_keeps (h : ∀ p ∈ powers, 0 < p) :
    (capConcentration powers maxBps).length = powers.length ∧ ∀ p ∈ capConcentration powers maxBps, 0 < p := by
  unfold capConcentration
  split
  · exact ⟨rfl, h⟩
  · exact capLoop_keeps _ h

/-! ## Chosen bonds -/

def Bond.Eligible (b : Bond) (params : StakingParams) : Prop := b.jailed = false ∧ params.minBond ≤ b.bonded

/-- The bonds the active set is made of, the strongest first. -/
def chosenBonds (bonds : List Bond) (params : StakingParams) : List Bond :=
  ((bonds.filter fun b => !b.jailed && params.minBond ≤ b.bonded).insertionSort (fun a b => bondLe a b)).take
    params.maxValidators.val

/-- Their powers, each at least one and none above its share. -/
def chosenPowers (bonds : List Bond) (params : StakingParams) : List U64 :=
  capConcentration ((chosenBonds bonds params).map fun b => max (powerOfStake b.bonded) 1) params.maxSingleShareBps

section

variable {bonds : List Bond} {params : StakingParams}

theorem mem_of_chosen {b : Bond} (h : b ∈ chosenBonds bonds params) : b ∈ bonds ∧ b.Eligible params := by
  have hmem := (List.mem_insertionSort _).1 (List.mem_of_mem_take h)
  obtain ⟨hb, heligible⟩ := List.mem_filter.1 hmem
  refine ⟨hb, ?_⟩
  simpa [Bond.Eligible] using heligible

theorem length_chosen_le : (chosenBonds bonds params).length ≤ params.maxValidators.val :=
  List.length_take_le _ _

theorem chosen_ne_nil {b : Bond} (hb : b ∈ bonds) (he : b.Eligible params) (hmax : 0 < params.maxValidators.val) :
    chosenBonds bonds params ≠ [] := by
  have hmem : b ∈ (bonds.filter fun b => !b.jailed && params.minBond ≤ b.bonded).insertionSort fun a b => bondLe a b := by
    refine (List.mem_insertionSort _).2 (List.mem_filter.2 ⟨hb, ?_⟩)
    simpa [Bond.Eligible] using he
  unfold chosenBonds
  rw [Ne, List.take_eq_nil_iff]
  rintro (h | h)
  · omega
  · rw [h] at hmem
    cases hmem

theorem chosenPowers_keeps :
    (chosenPowers bonds params).length = (chosenBonds bonds params).length ∧ ∀ p ∈ chosenPowers bonds params, 0 < p := by
  have hpos : ∀ p ∈ (chosenBonds bonds params).map fun b => max (powerOfStake b.bonded) 1, (0 : U64) < p := by
    intro p hp
    obtain ⟨b, -, rfl⟩ := List.mem_map.1 hp
    exact lt_max_of_lt_right (by decide)
  unfold chosenPowers
  obtain ⟨hlength, hcapped⟩ := capConcentration_keeps hpos
  exact ⟨hlength.trans (List.length_map _), hcapped⟩

theorem sum_chosenPowers_le :
    ((chosenPowers bonds params).map (·.val)).sum ≤
      ((chosenBonds bonds params).map (·.bonded.val)).sum / Amount.SENTE_PER_AFRI + params.maxValidators.val := by
  have hpower : ∀ l : List Bond, ((l.map fun b => max (powerOfStake b.bonded) 1).map (·.val)).sum ≤
      (l.map (·.bonded.val)).sum / Amount.SENTE_PER_AFRI + l.length := by
    intro l
    induction l with
    | nil => simp
    | cons b rest ih =>
      have hb : (max (powerOfStake b.bonded) 1 : U64).val ≤ b.bonded.val / Amount.SENTE_PER_AFRI + 1 := by
        rw [Fin.coe_max]
        exact max_le ((min_le_left _ _).trans (Nat.le_add_right _ _)) (Nat.le_add_left _ _)
      have hdiv : b.bonded.val / Amount.SENTE_PER_AFRI + (rest.map (·.bonded.val)).sum / Amount.SENTE_PER_AFRI ≤
          (b.bonded.val + (rest.map (·.bonded.val)).sum) / Amount.SENTE_PER_AFRI := Nat.div_add_div_le_add_div
      simp only [List.map_cons, List.sum_cons, List.length_cons]
      omega
  calc ((chosenPowers bonds params).map (·.val)).sum
      ≤ (((chosenBonds bonds params).map fun b => max (powerOfStake b.bonded) 1).map (·.val)).sum :=
        sum_capConcentration_le _ _
    _ ≤ ((chosenBonds bonds params).map (·.bonded.val)).sum / Amount.SENTE_PER_AFRI + (chosenBonds bonds params).length :=
        hpower _
    _ ≤ _ := Nat.add_le_add_left length_chosen_le _

theorem chosen_subperm : (chosenBonds bonds params).Subperm bonds :=
  ((List.take_sublist _ _).subperm.trans (List.perm_insertionSort _ _).subperm).trans List.filter_sublist.subperm

variable [Crypto]

/-- The validator a chosen bond becomes, with the power it is left with. -/
def chosenValidators (bonds : List Bond) (params : StakingParams) : List Validator :=
  ((chosenBonds bonds params).zip (chosenPowers bonds params)).map fun (b, power) =>
    Validator.new b.publicKey power b.country

theorem chosenValidators_addresses :
    (chosenValidators bonds params).map (·.address) =
      (chosenBonds bonds params).map fun b => Address.fromPublicKey b.publicKey := by
  have hzip : ((chosenBonds bonds params).zip (chosenPowers bonds params)).map Prod.fst = chosenBonds bonds params :=
    List.map_fst_zip chosenPowers_keeps.1.ge
  rw [chosenValidators, List.map_map]
  conv_rhs => rw [← hzip, List.map_map]
  rfl

theorem chosenValidators_powers :
    (chosenValidators bonds params).map (·.votingPower) = chosenPowers bonds params := by
  have hzip : ((chosenBonds bonds params).zip (chosenPowers bonds params)).map Prod.snd = chosenPowers bonds params :=
    List.map_snd_zip chosenPowers_keeps.1.le
  rw [chosenValidators, List.map_map]
  conv_rhs => rw [← hzip]
  rfl

theorem length_chosenValidators : (chosenValidators bonds params).length = (chosenBonds bonds params).length := by
  rw [chosenValidators, List.length_map, List.length_zip, chosenPowers_keeps.1, min_self]

theorem activeSet_eq_ok {set : ValidatorSet} :
    activeSet bonds params = .ok set ↔ ValidatorSet.new (chosenValidators bonds params) = .ok set := by
  unfold activeSet
  dsimp only
  split
  · next h =>
      have hnil : chosenBonds bonds params = [] := List.map_eq_nil_iff.1 h
      have hnew : ¬ ValidatorSet.new (chosenValidators bonds params) = .ok set := by
        intro hok
        refine (ValidatorSet.new_eq_ok.1 ⟨set, hok⟩).1 ?_
        rw [← List.length_eq_zero_iff, length_chosenValidators, hnil, List.length_nil]
      simp [hnew]
  · rw [← chosenBonds, ← chosenPowers, ← chosenValidators]
    cases ValidatorSet.new (chosenValidators bonds params) <;> simp

theorem activeSet_isOk :
    (∃ set, activeSet bonds params = .ok set) ↔ chosenBonds bonds params ≠ [] ∧
      ((chosenBonds bonds params).map fun b => Address.fromPublicKey b.publicKey).Nodup ∧
      ((chosenPowers bonds params).map (·.val)).sum < 2 ^ 64 := by
  have hsum : ((chosenValidators bonds params).map fun v => v.votingPower.val) = (chosenPowers bonds params).map (·.val) := by
    rw [← chosenValidators_powers, List.map_map]
    rfl
  have hpos : ∀ v ∈ chosenValidators bonds params, 0 < v.votingPower := by
    intro v hv
    have hp : v.votingPower ∈ chosenPowers bonds params := chosenValidators_powers ▸ List.mem_map_of_mem hv
    exact chosenPowers_keeps.2 _ hp
  simp only [activeSet_eq_ok, ValidatorSet.new_eq_ok, chosenValidators_addresses, hsum]
  rw [← List.length_pos_iff, ← List.length_pos_iff, length_chosenValidators]
  exact ⟨fun ⟨h₁, _, h₂⟩ => ⟨h₁, h₂⟩, fun ⟨h₁, h₂⟩ => ⟨h₁, hpos, h₂⟩⟩

theorem length_activeSet {set : ValidatorSet} (h : activeSet bonds params = .ok set) :
    set.validators.length = (chosenBonds bonds params).length := by
  rw [ValidatorSet.validators_of_new (activeSet_eq_ok.1 h), (sortByAddress_perm _).length_eq, length_chosenValidators]

theorem mem_activeSet {set : ValidatorSet} (h : activeSet bonds params = .ok set) {v : Validator}
    (hv : v ∈ set.validators) :
    v.address = Address.fromPublicKey v.publicKey ∧ ∃ b ∈ chosenBonds bonds params, b.publicKey = v.publicKey := by
  rw [ValidatorSet.validators_of_new (activeSet_eq_ok.1 h), (sortByAddress_perm _).mem_iff] at hv
  obtain ⟨⟨b, power⟩, hmem, rfl⟩ := List.mem_map.1 hv
  exact ⟨rfl, b, (List.of_mem_zip hmem).1, rfl⟩

end

/-! ## The set in a store -/

namespace Store

variable {s s' : Store}

def candidates (s : Store) : List Address :=
  match s .bondIndex with
  | some (.value index) => index
  | _ => []

def bondList (s : Store) : List Bond := s.candidates.filterMap s.bondAt

theorem candidates_of_read {v : Option (List Address)} (h : s.getDecoded .bondIndex = .ok v) :
    s.candidates = v.getD [] := by
  unfold candidates
  cases v with
  | none => rw [getDecoded_eq_none.1 h]; rfl
  | some index => rw [(getDecoded_eq_some.1 h).1]; rfl

theorem Whole.index_readable (h : s.Whole) :
    (∃ v, s.getDecoded .bondIndex = .ok v) ↔ s.candidates.length ≤ MAX_FIELD_LEN := by
  rw [h.readable, candidates]
  cases hc : s .bondIndex with
  | none => simp
  | some c =>
    obtain ⟨v, rfl⟩ := h _ c hc
    simp [StoreKey.decodeError]

theorem Whole.queue_readable (h : s.Whole) {operator : Address} :
    (∃ v, s.getDecoded (.unbonding operator) = .ok v) ↔ (s.queueAt operator).length ≤ MAX_FIELD_LEN := by
  rw [h.readable, queueAt]
  cases hc : s (.unbonding operator) with
  | none => simp
  | some c =>
    obtain ⟨v, rfl⟩ := h _ c hc
    simp [StoreKey.decodeError]

end Store

namespace Staking

variable {s s' : Store}

theorem runs_collectBonds (hs : s.Whole) {operators : List Address} {l : List Bond} :
    Runs (collectBonds operators) s l s' ↔ l = operators.filterMap s.bondAt ∧ s = s' := by
  induction operators generalizing l with
  | nil => simp [collectBonds, eq_comm]
  | cons operator rest ih =>
    obtain ⟨v, hv, -⟩ := hs.getDecoded (k := .bond operator) fun _ => rfl
    have hat := Store.bondAt_of_read hv
    have hcons : (operator :: rest).filterMap s.bondAt = v.toList ++ rest.filterMap s.bondAt := by
      rw [List.filterMap_cons, hat]
      cases v <;> rfl
    rw [hcons]
    simp [collectBonds, bondOf, hv, ih, and_comm, eq_comm]

theorem runs_currentSet [Crypto] {params : StakingParams} (hs : s.Whole) {set : ValidatorSet} :
    Runs (currentSet params) s set s' ↔
      s.candidates.length ≤ MAX_FIELD_LEN ∧ activeSet s.bondList params = .ok set ∧ s = s' := by
  rw [← hs.index_readable]
  simp only [currentSet, Staking.bonds, Staking.candidates]
  simp [runs_collectBonds hs]
  constructor
  · rintro ⟨v, hv, hsame, hset⟩
    rw [Store.bondList, Store.candidates_of_read hv]
    exact ⟨⟨v, hv⟩, hset, hsame⟩
  · rintro ⟨⟨v, hv⟩, hset, hsame⟩
    rw [Store.bondList, Store.candidates_of_read hv] at hset
    exact ⟨v, hv, hsame, hset⟩

end Staking

end AfroLink
