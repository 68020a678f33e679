import AfroLink.Gov.Governance

/-!
# What a council can and cannot do

A cap on the weight of each country against the threshold of the council: whom the cap keeps from deciding, and whom
the threshold leaves able to block.
-/

namespace AfroLink

namespace Council

def weight (seats : List Seat) : ℕ := (seats.map fun s => s.weight.val).sum

def heldBy (c : Council) (country : CountryCode) : ℕ := weight (c.seats.filter (·.country == country))

def others (c : Council) (country : CountryCode) : List Seat := c.seats.filter (!·.country == country)

/-- Every country leaves enough weight to the others to reach the threshold. -/
def LeavesRoom (c : Council) : Prop := ∀ s ∈ c.seats, c.thresholdBps.val + c.shareBps s.country ≤ 10000

variable {c : Council} {country : CountryCode}

/-! ## The rules a council passed -/

theorem wf_iff {seats : List Seat} {thresholdBps : U32} :
    violation seats thresholdBps = none ↔ seats ≠ [] ∧ seats.length ≤ MAX_SEATS ∧
      seats.IsChain (fun a b => a.holder < b.holder) ∧ (∀ s ∈ seats, s.weight ≠ 0) ∧
      MIN_COUNCIL_THRESHOLD_BPS ≤ thresholdBps ∧ thresholdBps ≤ 10000 := by
  unfold violation
  split_ifs <;> simp_all

theorem sorted (c : Council) : c.seats.Pairwise (fun a b => a.holder < b.holder) :=
  List.isChain_iff_pairwise.1 (wf_iff.1 c.wf).2.2.1

theorem threshold_bounds (c : Council) : 6667 ≤ c.thresholdBps.val ∧ c.thresholdBps.val ≤ 10000 := by
  obtain ⟨-, -, -, -, hmin, hmax⟩ := wf_iff.1 c.wf
  exact ⟨hmin, hmax⟩

theorem totalWeight_pos (c : Council) : 0 < c.totalWeight := by
  obtain ⟨hne, -, -, hpos, -⟩ := wf_iff.1 c.wf
  obtain ⟨s, hs⟩ := List.exists_mem_of_ne_nil _ hne
  have hle : s.weight.val ≤ c.totalWeight :=
    List.single_le_sum (fun _ _ => Nat.zero_le _) _ (List.mem_map.2 ⟨s, hs, rfl⟩)
  have hweight : s.weight.val ≠ 0 := fun h => hpos s hs (Fin.ext h)
  omega

/-! ## Shares -/

theorem shareBps_le_iff {x : ℕ} : c.shareBps country ≤ x ↔ c.heldBy country * 10000 ≤ x * c.totalWeight := by
  have hpos := c.totalWeight_pos
  have hshare : c.shareBps country = (c.heldBy country * 10000 + c.totalWeight - 1) / c.totalWeight := rfl
  rw [hshare, ← Nat.lt_succ_iff, Nat.div_lt_iff_lt_mul hpos, Nat.succ_mul]
  omega

theorem mem_destutter' {α : Type} [DecidableEq α] {l : List α} {a x : α} (h : x ∈ a :: l) : x ∈ l.destutter' (· ≠ ·) a := by
  induction l generalizing a with
  | nil => simpa using h
  | cons b rest ih =>
    rw [List.destutter'_cons]
    split_ifs with hab
    · rcases List.mem_cons.1 h with rfl | h
      · exact .head _
      · exact .tail _ (ih h)
    · rw [not_not] at hab
      subst hab
      refine ih ?_
      rcases List.mem_cons.1 h with rfl | h
      · exact .head _
      · exact h

variable {s : Seat} {cap : U32} {coalition : List Seat}

theorem mem_countries (h : s ∈ c.seats) : s.country ∈ c.countries := by
  have hsort : s.country ∈ (c.seats.map (·.country)).insertionSort (fun a b => countryLe a b) :=
    (List.mem_insertionSort _).2 (List.mem_map.2 ⟨s, h, rfl⟩)
  unfold countries
  generalize (c.seats.map (·.country)).insertionSort (fun a b => countryLe a b) = l at hsort
  cases l with
  | nil => cases hsort
  | cons a l => exact mem_destutter' hsort

theorem heaviest_le {l : List CountryCode} {worst r : Option (CountryCode × ℕ)}
    (h : l.foldl (fun worst country =>
      let bps := c.shareBps country
      match worst with
      | some (_, w) => if bps > w then some (country, bps) else worst
      | none => some (country, bps)) worst = r) :
    (∀ p, worst = some p → ∃ q, r = some q ∧ p.2 ≤ q.2) ∧ ∀ x ∈ l, ∃ q, r = some q ∧ c.shareBps x ≤ q.2 := by
  induction l generalizing worst with
  | nil =>
    subst h
    exact ⟨fun p hp => ⟨p, hp, le_rfl⟩, fun x hx => (List.not_mem_nil hx).elim⟩
  | cons y rest ih =>
    obtain ⟨hworst, hrest⟩ := ih h
    cases worst with
    | none =>
      refine ⟨nofun, fun x hx => ?_⟩
      rcases List.mem_cons.1 hx with rfl | hx
      · exact hworst _ rfl
      · exact hrest x hx
    | some p =>
      simp only at hworst
      split_ifs at hworst with hheavier
      · obtain ⟨q, hq, hle⟩ := hworst _ rfl
        refine ⟨?_, fun x hx => ?_⟩
        · rintro p' ⟨⟩
          exact ⟨q, hq, hheavier.le.trans hle⟩
        · rcases List.mem_cons.1 hx with rfl | hx
          · exact ⟨q, hq, hle⟩
          · exact hrest x hx
      · obtain ⟨q, hq, hle⟩ := hworst _ rfl
        refine ⟨hworst, fun x hx => ?_⟩
        rcases List.mem_cons.1 hx with rfl | hx
        · exact ⟨q, hq, (not_lt.1 hheavier).trans hle⟩
        · exact hrest x hx

theorem shareBps_le_of_check (h : c.checkConcentration cap = .ok ()) (hs : s ∈ c.seats) :
    c.shareBps s.country ≤ cap.val := by
  have hheaviest : ∃ q, c.heaviestCountry = some q ∧ c.shareBps s.country ≤ q.2 := by
    unfold heaviestCountry
    rw [if_neg c.totalWeight_pos.ne']
    exact (heaviest_le rfl).2 s.country (mem_countries hs)
  obtain ⟨⟨country, found⟩, hfound, hle⟩ := hheaviest
  unfold checkConcentration at h
  rw [hfound] at h
  simp only at h
  split_ifs at h with hcap
  exact hle.trans (not_lt.1 hcap)

theorem heldBy_eq_zero (h : ∀ s ∈ c.seats, s.country ≠ country) : c.heldBy country = 0 := by
  have hnone : c.seats.filter (·.country == country) = [] := by simpa using h
  rw [heldBy, hnone]
  rfl

theorem heldBy_le_of_check (h : c.checkConcentration cap = .ok ()) (country : CountryCode) :
    c.heldBy country * 10000 ≤ cap.val * c.totalWeight := by
  by_cases hseat : ∃ s ∈ c.seats, s.country = country
  · obtain ⟨s, hs, rfl⟩ := hseat
    exact shareBps_le_iff.1 (shareBps_le_of_check h hs)
  · rw [heldBy_eq_zero fun s hs heq => hseat ⟨s, hs, heq⟩, Nat.zero_mul]
    exact Nat.zero_le _

/-! ## Coalitions -/

theorem weight_filter_add (seats : List Seat) (p : Seat → Bool) :
    weight (seats.filter p) + weight (seats.filter (!p ·)) = weight seats := by
  induction seats with
  | nil => rfl
  | cons s rest ih =>
    cases hp : p s <;> simp [hp, weight] at ih ⊢ <;> omega

theorem weight_le_of_sublist {seats : List Seat} (h : coalition.Sublist seats) : weight coalition ≤ weight seats :=
  (h.map _).sum_le_sum fun _ _ => Nat.zero_le _

theorem weightOf_holder (h : s ∈ c.seats) : c.weightOf s.holder = s.weight := by
  have hnodup : (c.seats.map (·.holder)).Nodup :=
    (List.pairwise_map.2 c.sorted).imp fun hlt => ne_of_lt hlt
  obtain ⟨t, hfind⟩ : ∃ t, c.seats.find? (·.holder == s.holder) = some t :=
    Option.isSome_iff_exists.1 (List.find?_isSome.2 ⟨s, h, beq_self_eq_true _⟩)
  have hholder : t.holder = s.holder := by simpa using List.find?_some hfind
  have hsame : t = s := List.inj_on_of_nodup_map hnodup (List.mem_of_find?_eq_some hfind) h hholder
  rw [weightOf, hfind, hsame]

theorem tally_holders (h : ∀ s ∈ coalition, s ∈ c.seats) :
    Governance.tally c (coalition.map (·.holder)) = weight coalition := by
  unfold Governance.tally weight
  rw [List.map_map]
  refine congrArg List.sum (List.map_congr_left fun s hs => ?_)
  rw [Function.comp, weightOf_holder (h s hs)]

theorem not_reached_of_two (hcheck : c.checkConcentration cap = .ok ()) (hcap : cap ≤ MAX_COUNCIL_COUNTRY_SHARE_BPS)
     (hsub : coalition.Sublist c.seats) {x y : CountryCode}
    (htwo : ∀ s ∈ coalition, s.country = x ∨ s.country = y) :
    c.reached (Governance.tally c (coalition.map (·.holder))) = false := by
  have hx := heldBy_le_of_check hcheck x
  have hy := heldBy_le_of_check hcheck y
  have hpos := c.totalWeight_pos
  have hmin := c.threshold_bounds.1
  -- the seats of the first country, and the others, who are of the second
  have hfirst : weight (coalition.filter (·.country == x)) ≤ c.heldBy x := weight_le_of_sublist (hsub.filter _)
  have hsecond : weight (coalition.filter (!·.country == x)) ≤ c.heldBy y := by
    have hcongr : coalition.filter (!·.country == x) = coalition.filter fun s => !s.country == x && s.country == y := by
      refine List.filter_congr fun s hs => ?_
      rcases htwo s hs with hs | hs <;> simp [hs]
    rw [hcongr]
    refine weight_le_of_sublist ((List.monotone_filter_right _ fun s hs => ?_).trans (hsub.filter _))
    exact (Bool.and_eq_true _ _ ▸ hs).2
  have hsum := weight_filter_add coalition (·.country == x)
  have hcap' : cap.val ≤ 3333 := hcap
  rw [tally_holders fun s hs => hsub.subset hs, reached, decide_eq_false_iff_not, not_le]
  have hthreshold : 6667 * c.totalWeight ≤ c.totalWeight * c.thresholdBps.val := by
    rw [Nat.mul_comm]
    exact Nat.mul_le_mul_left _ hmin
  have hshare : cap.val * c.totalWeight ≤ 3333 * c.totalWeight := Nat.mul_le_mul_right _ hcap'
  omega

theorem reached_others_iff :
    c.reached (Governance.tally c ((c.others country).map (·.holder))) = true ↔
      c.thresholdBps.val + c.shareBps country ≤ 10000 := by
  have hbounds := c.threshold_bounds
  have hsum : c.heldBy country + weight (c.others country) = c.totalWeight :=
    weight_filter_add c.seats (·.country == country)
  have hseats : ∀ s ∈ c.others country, s ∈ c.seats := fun s hs => List.mem_of_mem_filter hs
  rw [tally_holders hseats, reached, decide_eq_true_iff]
  have hroom : c.thresholdBps.val + c.shareBps country ≤ 10000 ↔ c.shareBps country ≤ 10000 - c.thresholdBps.val := by
    omega
  have hproduct : (10000 - c.thresholdBps.val) * c.totalWeight + c.totalWeight * c.thresholdBps.val =
      10000 * c.totalWeight := by
    rw [Nat.mul_comm c.totalWeight, ← Nat.add_mul, Nat.sub_add_cancel hbounds.2]
  rw [hroom, shareBps_le_iff]
  omega

theorem leavesRoom_iff : c.LeavesRoom ↔
    ∀ country, c.reached (Governance.tally c ((c.others country).map (·.holder))) = true := by
  simp only [reached_others_iff]
  constructor
  · intro h country
    by_cases hseat : ∃ s ∈ c.seats, s.country = country
    · obtain ⟨s, hs, rfl⟩ := hseat
      exact h s hs
    · have hnone := heldBy_eq_zero fun s hs heq => hseat ⟨s, hs, heq⟩
      have hshare : c.shareBps country ≤ 0 := shareBps_le_iff.2 (by rw [hnone]; simp)
      have hmax := c.threshold_bounds.2
      omega
  · exact fun h s _ => h s.country

end Council

end AfroLink
