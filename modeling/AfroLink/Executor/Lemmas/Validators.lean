import AfroLink.Executor.Lemmas.Regular
import AfroLink.Staking.Lemmas.ActiveSet

/-!
# Bonded keys and evidence

Which keys are bonded changes with `Bond` messages only.
-/

namespace AfroLink

/-! ## Bonded keys -/

namespace Store

def keyAt (s : Store) (operator : Address) : Option PublicKey := (s.bondAt operator).map (·.publicKey)

/-- The index names operators once, and only those with a bond. -/
structure Indexed (s : Store) : Prop where
  nodup : s.candidates.Nodup
  bonded : ∀ a ∈ s.candidates, s.bondAt a ≠ none

variable {s s' : Store}

theorem candidates_congr (h : s' .bondIndex = s .bondIndex) : s'.candidates = s.candidates := by
  simp only [candidates, h]

theorem Filed.mem_bondList (hs : s.Filed) {b : Bond} : b ∈ s.bondList ↔ s.bondAt b.operator = some b := by
  unfold bondList
  rw [List.mem_filterMap]
  constructor
  · rintro ⟨a, -, hb⟩
    rwa [hs.operator a b hb]
  · intro hb
    obtain ⟨index, hindex, hmem⟩ := hs.indexed _ _ hb
    refine ⟨b.operator, ?_, hb⟩
    simpa only [candidates, hindex] using hmem

theorem Filed.mem_of_bondAt (hs : s.Filed) {a : Address} {b : Bond} (h : s.bondAt a = some b) : b ∈ s.bondList := by
  rw [hs.mem_bondList, hs.operator a b h]
  exact h

theorem Indexed.operators_nodup (hs : s.Indexed) (hf : s.Filed) : (s.bondList.map (·.operator)).Nodup := by
  have hoperators : s.bondList.map (·.operator) = s.candidates.filter fun a => (s.bondAt a).isSome := by
    unfold bondList
    rw [List.map_filterMap]
    have hself : ∀ a ∈ s.candidates, (s.bondAt a).map (·.operator) = if (s.bondAt a).isSome then some a else none := by
      intro a _
      cases hb : s.bondAt a with
      | none => rfl
      | some b => exact congrArg some (hf.operator a b hb)
    rw [List.filterMap_congr hself, ← List.filterMap_eq_filter]
    rfl
  rw [hoperators]
  exact hs.nodup.filter _

variable [Crypto]

def KeysApart (s : Store) : Prop :=
  ∀ a a' k k', s.keyAt a = some k → s.keyAt a' = some k' → Address.fromPublicKey k = Address.fromPublicKey k' → a = a'

end Store

section

variable [Crypto] {ctx : BlockContext} {sender : Address} {s s' : Store} {m : Message} {es : List StoreEvent}

omit [Crypto] in
theorem Store.keyAt_update {a : Address} {b b' : Bond} (hb : s.bondAt a = some b)
    (h : s'.bondAt = Function.update s.bondAt a (some b')) (hkey : b'.publicKey = b.publicKey) : s'.keyAt = s.keyAt := by
  funext x
  unfold keyAt
  rw [h]
  by_cases hx : x = a
  · subst hx
    rw [Function.update_self, hb, Option.map_some, Option.map_some, hkey]
  · rw [Function.update_of_ne hx]

theorem StakeStep.keys (h : StakeStep ctx sender s s' m) :
    (s'.keyAt = s.keyAt ∧ s'.candidates = s.candidates) ∨
      ∃ pk country x, m = .bond pk country x ∧ s.keyAt sender = none ∧
        s'.keyAt = Function.update s.keyAt sender (some pk) ∧ s'.candidates.Perm (sender :: s.candidates) := by
  cases h with
  | @bond pk country x v hnone _ hbonds _ hread hindex _ =>
    refine .inr ⟨pk, country, x, rfl, by simp [Store.keyAt, hnone], ?_, ?_⟩
    · funext a
      unfold Store.keyAt
      rw [hbonds]
      by_cases ha : a = sender
      · subst ha
        rw [Function.update_self, Function.update_self]
        rfl
      · rw [Function.update_of_ne ha, Function.update_of_ne ha]
    · have hnew : s'.candidates = (v.getD [] ++ [sender]).insertionSort (· ≤ ·) := by
        simp only [Store.candidates, hindex]
      rw [hnew, Store.candidates_of_read hread]
      exact (List.perm_insertionSort _ _).trans List.perm_append_comm
  | addStake hb _ hbonds _ hindex _ => exact .inl ⟨Store.keyAt_update hb hbonds rfl, Store.candidates_congr hindex⟩
  | unbond hb _ _ hbonds _ hindex _ => exact .inl ⟨Store.keyAt_update hb hbonds rfl, Store.candidates_congr hindex⟩
  | withdraw _ hbonds _ hindex _ =>
    refine .inl ⟨?_, Store.candidates_congr hindex⟩
    unfold Store.keyAt
    rw [hbonds]
  | slash _ _ hb _ _ _ hbonds _ hindex _ _ =>
    exact .inl ⟨Store.keyAt_update hb hbonds rfl, Store.candidates_congr hindex⟩
  | other _ hframe =>
    obtain ⟨hbonds, -, hindex⟩ := Store.books_of_frame hframe
    refine .inl ⟨?_, Store.candidates_congr hindex⟩
    unfold Store.keyAt
    rw [hbonds]

theorem Emits.keys (hs : s.Filed) (h : Emits s es s') :
    (s'.keyAt = s.keyAt ∧ s'.candidates = s.candidates) ∨
      ∃ ctx sender pk country x, es = [.message ctx sender (.bond pk country x)] ∧ s.keyAt sender = none ∧
        s'.keyAt = Function.update s.keyAt sender (some pk) ∧ s'.candidates.Perm (sender :: s.candidates) := by
  rcases h.quiet_or_message with hes | ⟨ctx, sender, m, rfl, hm⟩
  · obtain ⟨hbonds, -, hindex⟩ := Store.books_of_frame (h.books hes)
    refine .inl ⟨?_, Store.candidates_congr hindex⟩
    unfold Store.keyAt
    rw [hbonds]
  · rcases (Exec.applyMessage_stake hs hm).keys with hsame | ⟨pk, country, x, rfl, hrest⟩
    · exact .inl hsame
    · exact .inr ⟨ctx, sender, pk, country, x, rfl, hrest⟩

omit [Crypto] in
theorem Store.sum_bonded_le {l : List Bond} (hl : ∀ b ∈ l, s.bondAt b.operator = some b)
    (hnodup : (l.map (·.operator)).Nodup) : (l.map (·.bonded.val)).sum ≤ ∑ a, s.stakeOf a := by
  calc (l.map (·.bonded.val)).sum
      ≤ ((l.map (·.operator)).map s.stakeOf).sum := by
        rw [List.map_map]
        refine List.sum_le_sum fun b hb => ?_
        simp [Store.stakeOf, hl b hb]
    _ = ∑ a ∈ (l.map (·.operator)).toFinset, s.stakeOf a := (List.sum_toFinset _ hnodup).symm
    _ ≤ ∑ a, s.stakeOf a := Finset.sum_le_sum_of_subset (Finset.subset_univ _)

theorem Emits.indexed (hs : s.Filed) (hi : s.Indexed) (h : Emits s es s') : s'.Indexed := by
  have hnone : ∀ (t : Store) a, t.bondAt a = none ↔ t.keyAt a = none := fun t a => Option.map_eq_none_iff.symm
  rcases h.keys hs with ⟨hkeys, hcandidates⟩ | ⟨ctx, sender, pk, country, x, -, hfresh, hkeys, hperm⟩
  · refine ⟨hcandidates ▸ hi.nodup, fun a ha => ?_⟩
    rw [Ne, hnone, hkeys, ← hnone]
    exact hi.bonded a (hcandidates ▸ ha)
  · have hnew : sender ∉ s.candidates := fun hmem => hi.bonded sender hmem ((hnone s sender).2 hfresh)
    refine ⟨hperm.nodup_iff.2 (List.nodup_cons.2 ⟨hnew, hi.nodup⟩), fun a ha => ?_⟩
    rw [Ne, hnone, hkeys]
    rcases List.mem_cons.1 (hperm.mem_iff.1 ha) with rfl | ha
    · simp
    · have hne : a ≠ sender := fun heq => hnew (heq ▸ ha)
      rw [Function.update_of_ne hne, ← hnone]
      exact hi.bonded a ha

def StoreEvent.FreshKey (s : Store) : StoreEvent → Prop
  | message _ _ (.bond pk _ _) => ∀ a k, s.keyAt a = some k → Address.fromPublicKey k ≠ Address.fromPublicKey pk
  | _ => True

theorem Emits.keysApart (hs : s.Filed) (hkeys : s.KeysApart) (h : Emits s es s') (hfresh : ∀ ev ∈ es, ev.FreshKey s) :
    s'.KeysApart := by
  unfold Store.KeysApart
  rcases h.keys hs with ⟨hsame, -⟩ | ⟨ctx, sender, pk, country, x, rfl, -, hupdate, -⟩
  · rw [hsame]
    exact hkeys
  · have hnew : ∀ a k, s.keyAt a = some k → Address.fromPublicKey k ≠ Address.fromPublicKey pk := hfresh _ (.head _)
    rw [hupdate]
    intro a a' k k' hk hk' haddress
    by_cases ha : a = sender <;> by_cases ha' : a' = sender
    · rw [ha, ha']
    · subst ha
      rw [Function.update_self] at hk
      rw [Function.update_of_ne ha'] at hk'
      cases hk
      exact absurd haddress.symm (hnew a' k' hk')
    · subst ha'
      rw [Function.update_self] at hk'
      rw [Function.update_of_ne ha] at hk
      cases hk'
      exact absurd haddress (hnew a k hk)
    · rw [Function.update_of_ne ha] at hk
      rw [Function.update_of_ne ha'] at hk'
      exact hkeys a a' k k' hk hk' haddress

section

variable [StateRoot] {e : Executor} {start : Store} {g : Genesis} {limits : GenesisLimits} {b : Block}

theorem Genesis.apply_indexed (h : Runs (g.apply limits) .empty b s) : s.Indexed := by
  have hindex : s .bondIndex = none := install_frame (install_of_apply h) id (by simp)
  have hcandidates : s.candidates = [] := by simp only [Store.candidates, hindex]
  constructor
  · rw [hcandidates]
    exact List.nodup_nil
  · rw [hcandidates]
    simp

theorem Genesis.apply_keysApart (h : Runs (g.apply limits) .empty b s) : s.KeysApart := by
  intro a a' k k' hk
  rw [Store.keyAt, (apply_books h).1 a] at hk
  cases hk

theorem Occurs.indexed (h : Occurs e start s) (happart : ModulesApart)
    (hgenesis : Runs (g.apply limits) .empty b start) : s.Indexed :=
  h.always.invariant happart hgenesis (fun _ _ _ hs hi hacts _ => hacts.1.indexed hs.filed hi)
    (Genesis.apply_indexed hgenesis)

theorem OccursWhere.keysApart (h : OccursWhere StoreEvent.FreshKey e start s) (happart : ModulesApart)
    (hgenesis : Runs (g.apply limits) .empty b start) : s.KeysApart :=
  h.invariant happart hgenesis (fun _ _ _ hs hkeys hacts hfresh => hacts.1.keysApart hs.filed hkeys hfresh)
    (Genesis.apply_keysApart hgenesis)

end

/-! ## Chosen bonds -/

theorem Store.Regular.held_le_supply (hs : s.Regular) :
    (s.ledger .native).balance stakingAccount ≤ (s.ledger .native).supply := by
  have hbalanced := hs.balanced .native
  unfold Ledger.Balanced at hbalanced
  rw [← hbalanced]
  exact Ledger.balance_le_held _ _

omit [Crypto] in
theorem maxValidators_pos {p : ChainParams} (h : p.validate = .ok ()) : 0 < p.staking.maxValidators.val := by
  unfold ChainParams.validate at h
  split_ifs at h with _ _ _ _ _ _ _ hmin
  exact Nat.lt_of_lt_of_le (by decide) (Fin.le_def.1 (not_lt.1 hmin))

section

variable {params : StakingParams}

omit [Crypto] in
theorem Store.chosen_operators_nodup (hs : s.Filed) (hi : s.Indexed) :
    ((chosenBonds s.bondList params).map (·.operator)).Nodup := by
  obtain ⟨l, hperm, hsub⟩ : (chosenBonds s.bondList params).Subperm s.bondList := chosen_subperm
  rw [← (hperm.map _).nodup_iff]
  exact (hsub.map _).nodup (hi.operators_nodup hs)

theorem Store.KeysApart.chosen_nodup (hkeys : s.KeysApart) (hs : s.Filed) (hi : s.Indexed) :
    ((chosenBonds s.bondList params).map fun b => Address.fromPublicKey b.publicKey).Nodup := by
  have hat : ∀ b ∈ chosenBonds s.bondList params, s.keyAt b.operator = some b.publicKey := by
    intro b hb
    rw [Store.keyAt, hs.mem_bondList.1 (mem_of_chosen hb).1, Option.map_some]
  have hnodup : ((chosenBonds s.bondList params).map (·.operator)).Nodup := Store.chosen_operators_nodup hs hi
  rw [List.Nodup, List.pairwise_map] at hnodup ⊢
  refine hnodup.imp_of_mem fun {a b} ha hb hne haddress => hne ?_
  exact hkeys _ _ _ _ (hat a ha) (hat b hb) haddress

theorem Store.Regular.chosen_sum_le (hs : s.Regular) (hi : s.Indexed) :
    ((chosenPowers s.bondList params).map (·.val)).sum ≤
      (s.ledger .native).supply / Amount.SENTE_PER_AFRI + params.maxValidators.val := by
  have hstake : ((chosenBonds s.bondList params).map (·.bonded.val)).sum ≤ (s.ledger .native).supply := by
    refine (Store.sum_bonded_le (fun b hb => hs.filed.mem_bondList.1 (mem_of_chosen hb).1)
      (Store.chosen_operators_nodup hs.filed hi)).trans ?_
    exact hs.backed.trans hs.held_le_supply
  exact sum_chosenPowers_le.trans (Nat.add_le_add_right (Nat.div_le_div_right hstake) _)

end

/-! ## Evidence -/

/-- Two different votes for one slot, in the name of the validator and signed with the key. -/
structure Equivocation.Shows (e : Equivocation) (pk : PublicKey) : Prop where
  first : e.first.vote.validator = e.validator
  second : e.second.vote.validator = e.validator
  height : e.first.vote.height = e.second.vote.height
  round : e.first.vote.round = e.second.vote.round
  voteType : e.first.vote.voteType = e.second.vote.voteType
  blockId : e.first.vote.blockId ≠ e.second.vote.blockId
  firstSigned : e.first.verifies pk = true
  secondSigned : e.second.verifies pk = true

theorem provesEquivocation_iff {evidence : Equivocation} {set : ValidatorSet} :
    provesEquivocation evidence set = true ↔
      ∃ v ∈ set.validators, v.address = evidence.validator ∧ evidence.Shows v.publicKey := by
  have hget : ∀ v, set.get evidence.validator = some v ↔ v ∈ set.validators ∧ v.address = evidence.validator :=
    fun v => ValidatorSet.get_eq_some
  simp only [provesEquivocation]
  constructor
  · intro h
    split at h
    · cases h
    · next hnames =>
        rw [not_or, not_not, not_not] at hnames
        split at h
        · cases h
        · next v hv =>
            split at h
            · cases h
            · next hslot =>
                simp only [not_or, not_not] at hslot
                split at h
                · cases h
                · next hblock =>
                    rw [Bool.and_eq_true] at h
                    obtain ⟨hmem, haddress⟩ := (hget v).1 hv
                    exact ⟨v, hmem, haddress, hnames.1, hnames.2, hslot.1, hslot.2.1, hslot.2.2, hblock, h.1, h.2⟩
  · rintro ⟨v, hmem, haddress, h⟩
    simp [h.first, h.second, h.height, h.round, h.voteType, h.blockId, h.firstSigned, h.secondSigned,
      (hget v).2 ⟨hmem, haddress⟩]

/-! ## Reports -/

omit [Crypto] in
theorem Exec.staking_runs {α : Type} {op : StakingParams → Staking.M α} (hs : s.Whole) {a : α}
    (h : Runs (op s.chainParams.staking) s a s') : Runs (staking op) s a s' := by
  obtain ⟨v, hv, -⟩ := hs.getDecoded (k := .params) fun _ => rfl
  have hp : Runs paramsOf s s.chainParams s := by
    unfold Store.chainParams
    rw [hv]
    refine Runs.mapErr_iff.2 ?_
    unfold Governance.params
    cases v <;> simp [hv]
  exact Runs.bind_iff.2 ⟨_, s, hp, Runs.mapErr_iff.2 h⟩

theorem Exec.report_runs (ctx : BlockContext) (sender : Address) {evidence : Equivocation} {set : ValidatorSet} {b : Bond}
    (hs : s.Regular) (hset : Runs (Staking.currentSet s.chainParams.staking) s set s)
    (hproof : provesEquivocation evidence set = true) (hb : s.bondAt evidence.validator = some b)
    (hjailed : b.jailed = false) (hqueue : (s.queueAt evidence.validator).length ≤ MAX_FIELD_LEN) :
    ∃ s', Runs (applyMessage ctx sender (.reportEquivocation evidence)) s () s' := by
  obtain ⟨v, hv⟩ := hs.whole.queue_readable.2 hqueue
  have hheld : b.bonded.val + queued (s.queueAt evidence.validator) ≤ (s.ledger .native).balance stakingAccount := by
    have := hs.backed.owed_le evidence.validator
    simpa [Store.escrow, Store.stakeOf, hb] using this
  have hsucceeds : wp (Staking.slash evidence.validator evidence.first.vote.height ctx.height) (fun _ _ => True)
      (fun _ _ => False) s := Staking.slash_succeeds hs.whole hb hjailed hv hheld hs.held_le_supply
  obtain ⟨total, s', hslash⟩ := hsucceeds.exists_runs
  have hrun : Runs (Staking.slashEquivocation evidence set ctx.height) s total s' := by
    unfold Staking.slashEquivocation
    exact Runs.guard_iff.2 ⟨by simp [hproof], hslash⟩
  refine ⟨s', Runs.bind_iff.2 ⟨set, s, staking_runs hs.whole hset, Runs.bind_iff.2 ⟨total, s', ?_, rfl⟩⟩⟩
  exact staking_runs hs.whole hrun

end

end AfroLink
