import AfroLink.Consensus.Theorems
import AfroLink.Light.Lemmas

/-!
# What a light client keeps

The sets a client holds are the ones its trusted header commits to, and it moves only forwards.
-/

namespace AfroLink

open LightClient (Call)

namespace LightClient

section

variable [Crypto] {c : LightClient} {k : Call}

def Accepts (c : LightClient) (k : Call) : Prop := Runs k.run c () (c.after k)

def AcceptsAny : LightClient → List Call → Prop
  | _, [] => False
  | c, k :: rest => c.Accepts k ∨ AcceptsAny (c.after k) rest

/-- The sets are the ones the trusted header commits to. -/
structure Committed (c : LightClient) : Prop where
  validators : c.validators.hash = c.trusted.validatorsHash
  nextValidators : c.nextValidators.hash = c.trusted.nextValidatorsHash

theorem Accepts.passes (h : c.Accepts k) : c.Passes k.offer ∧ c.after k = c.adopted k.offer := runs_call h

theorem after_of_not_accepts (h : ¬ c.Accepts k) : c.after k = c := (after_cases c k).resolve_left h

theorem Committed.after (h : c.Committed) (k : Call) : (c.after k).Committed := by
  by_cases hk : c.Accepts k
  · obtain ⟨hpasses, hafter⟩ := hk.passes
    rw [hafter]
    exact ⟨hpasses.validators, hpasses.nextValidators⟩
  · rwa [after_of_not_accepts hk]

theorem after_chainId (c : LightClient) (k : Call) : (c.after k).chainId = c.chainId := by
  by_cases hk : c.Accepts k
  · rw [hk.passes.2]
    rfl
  · rw [after_of_not_accepts hk]

theorem after_trusted_chain (c : LightClient) (k : Call) :
    (c.after k).trusted.chainId = c.chainId ↔ c.trusted.chainId = c.chainId ∨ c.Accepts k := by
  by_cases hk : c.Accepts k
  · rw [hk.passes.2]
    exact ⟨fun _ => .inr hk, fun _ => hk.passes.1.chain⟩
  · rw [after_of_not_accepts hk]
    exact ⟨.inl, fun h => h.resolve_right hk⟩

theorem afterAll_committed (h : c.Committed) (calls : List Call) : (c.afterAll calls).Committed := by
  induction calls generalizing c with
  | nil => exact h
  | cons k rest ih => exact ih (h.after k)

theorem afterAll_chainId (c : LightClient) (calls : List Call) : (c.afterAll calls).chainId = c.chainId := by
  induction calls generalizing c with
  | nil => rfl
  | cons k rest ih => exact (ih (c.after k)).trans (after_chainId c k)

theorem afterAll_trusted_chain (c : LightClient) (calls : List Call) :
    (c.afterAll calls).trusted.chainId = c.chainId ↔ c.trusted.chainId = c.chainId ∨ c.AcceptsAny calls := by
  induction calls generalizing c with
  | nil => exact ⟨.inl, fun h => h.resolve_right id⟩
  | cons k rest ih =>
    have hrest := ih (c.after k)
    rw [after_chainId, after_trusted_chain, or_assoc] at hrest
    exact hrest

theorem Accepts.height_lt_iff (h : c.Accepts k) :
    c.trusted.height < (c.after k).trusted.height ↔ c.trusted.height ≠ Fin.last _ := by
  have hnext : c.trusted.height < c.trusted.height.next ↔ c.trusted.height ≠ Fin.last _ := by
    have hbound := c.trusted.height.isLt
    have hone : ((1 : U64) : ℕ) = 1 := rfl
    rw [Fin.lt_def, Height.next, Fin.saturatingAdd_val, ne_eq, Fin.ext_iff, Fin.val_last]
    omega
  unfold Accepts at h
  cases k with
  | update o =>
    obtain ⟨-, ⟨hheight, -⟩, -, hafter⟩ := runs_update.1 h
    rw [hafter]
    show c.trusted.height < o.header.height ↔ _
    rw [hheight, hnext]
  | verifySkipping o =>
    obtain ⟨-, hheight, -, hafter⟩ := runs_verifySkipping.1 h
    rw [hafter]
    show c.trusted.height < o.header.height ↔ _
    exact ⟨fun _ => (hheight.trans_le (Fin.le_last _)).ne, fun _ => hheight⟩

theorem created_committed {chainId : ChainId} {header : BlockHeader} {validators nextValidators : ValidatorSet}
    (h : fromCheckpoint chainId header validators nextValidators = .ok c) :
    c.Committed ∧ c.chainId = chainId ∧ c.trusted = header := by
  unfold fromCheckpoint at h
  split_ifs at h with hsets
  cases h
  simp only [not_or, not_not] at hsets
  exact ⟨⟨hsets.1, hsets.2⟩, rfl, rfl⟩

theorem fromCheckpoint_of_fromBlockId {chainId : ChainId} {blockId : Hash32} {header : BlockHeader}
    {validators nextValidators : ValidatorSet} (h : fromBlockId chainId blockId header validators nextValidators = .ok c) :
    fromCheckpoint chainId header validators nextValidators = .ok c := by
  unfold fromBlockId at h
  split_ifs at h
  exact h

end

end LightClient

theorem light_client_invariant [Crypto] (chainId : ChainId) (header : BlockHeader)
    (validators nextValidators : ValidatorSet) (client : LightClient)
    (hclient : LightClient.fromCheckpoint chainId header validators nextValidators = .ok client ∨
      ∃ blockId, LightClient.fromBlockId chainId blockId header validators nextValidators = .ok client)
    (calls : List Call) (k : Call) :
    (client.afterAll calls).Committed ∧ (client.afterAll calls).chainId = chainId ∧
    ((client.afterAll calls).trusted.chainId = chainId ↔ header.chainId = chainId ∨ client.AcceptsAny calls) ∧
    (∀ e c, k.run (client.afterAll calls) = .error e c → c = client.afterAll calls) ∧
    ∀ c, Runs k.run (client.afterAll calls) () c →
      ((client.afterAll calls).trusted.height < c.trusted.height ↔
        (client.afterAll calls).trusted.height ≠ Fin.last _) ∧
      (client.afterAll calls).trusted.time < c.trusted.time ∧ c.trusted.chainId = chainId ∧
      k.offer.now.val ≤ (client.afterAll calls).trusted.time.val + (client.afterAll calls).trustingPeriodMs.val := by
  have hcreated : LightClient.fromCheckpoint chainId header validators nextValidators = .ok client :=
    hclient.elim id fun ⟨_, h⟩ => LightClient.fromCheckpoint_of_fromBlockId h
  obtain ⟨hcommitted, hchain, htrusted⟩ := LightClient.created_committed hcreated
  have hchainId : (client.afterAll calls).chainId = chainId := (LightClient.afterAll_chainId _ _).trans hchain
  refine ⟨LightClient.afterAll_committed hcommitted calls, hchainId, ?_, fun e c => LightClient.call_error, ?_⟩
  · rw [← hchain, LightClient.afterAll_trusted_chain, htrusted]
  · intro c hruns
    have haccepts : (client.afterAll calls).Accepts k := by
      rw [LightClient.Accepts, LightClient.after_of_runs hruns]
      exact hruns
    obtain ⟨hpasses, hafter⟩ := LightClient.runs_call hruns
    have hheight := haccepts.height_lt_iff
    rw [LightClient.after_of_runs hruns] at hheight
    refine ⟨hheight, ?_, ?_, ?_⟩
    · rw [hafter]
      exact hpasses.later
    · rw [hafter]
      exact hpasses.chain.trans hchainId
    · have hfresh := Fin.le_def.1 hpasses.fresh
      rw [Fin.saturatingSub_val] at hfresh
      omega

namespace Sample

def headerAt (chainId : ChainId) (height : Height) (time : Timestamp) (parent : Hash32) : BlockHeader :=
  { chainId, height, time, parent, txRoot := 0, appHash := 0, outcomeRoot := 0, validatorsHash := alone.hash
    nextValidatorsHash := alone.hash }

def trusting (header : BlockHeader) : LightClient :=
  { chainId := chain, validators := alone, nextValidators := alone, trusted := header
    trustingPeriodMs := TRUSTING_PERIOD_MS }

theorem trusting_created {header : BlockHeader} (h : alone.hash = header.validatorsHash)
    (hnext : alone.hash = header.nextValidatorsHash) :
    LightClient.fromCheckpoint chain header alone alone = .ok (trusting header) := by
  rw [LightClient.fromCheckpoint, if_neg]
  · rfl
  · rintro (hne | hne)
    · exact hne h
    · exact hne hnext

/-- A header signed by the one validator, offered at time 300. -/
def offered (header : BlockHeader) : Offer :=
  { header, validators := alone, nextValidators := alone, now := 300
    commit := { height := header.height, round := 0, blockId := header.id
                signatures := [Vote.sign { chainId := chain, height := header.height, round := 0, voteType := .precommit
                                           blockId := some header.id, validator := addressOf 1 } (key 1)] } }

theorem offered_passes {trusted : BlockHeader} {height : Height} {time : Timestamp} {parent : Hash32}
    (hfresh : (300 : Timestamp).saturatingSub trusted.time ≤ TRUSTING_PERIOD_MS) (hlater : trusted.time < time)
    (hahead : time ≤ (300 : Timestamp).saturatingAdd MAX_CLOCK_DRIFT_MS)
    (hquorum : (offered (headerAt chain height time parent)).commit.verify chain alone = .ok ()) :
    (trusting trusted).Passes (offered (headerAt chain height time parent)) :=
  ⟨hfresh, rfl, hlater, hahead, ⟨rfl, rfl⟩, rfl, rfl, hquorum⟩

/-- The last header there is room for, and one more at the same height. -/
def lastHeader : BlockHeader := headerAt chain (Fin.last _) 100 0
def afterLast : BlockHeader := headerAt chain (Fin.last _) 200 lastHeader.id

/-- A client of one chain can start from a header of another; and at the last height it goes on without rising. -/
theorem light_client_strays :
    (∃ other client, other ≠ chain ∧ LightClient.fromCheckpoint chain (headerAt other 1 100 0) alone alone = .ok client ∧
      client.trusted.chainId ≠ client.chainId) ∧
    ∃ client c, LightClient.fromCheckpoint chain lastHeader alone alone = .ok client ∧
      Runs (LightClient.update (offered afterLast)) client () c ∧ c.trusted.height = client.trusted.height := by
  refine ⟨⟨⟨"afrolink-2", by decide⟩, _, by decide, trusting_created rfl rfl, by decide⟩,
    ⟨_, _, trusting_created rfl rfl, LightClient.runs_update.2 ⟨?_, ⟨?_, rfl⟩, rfl, rfl⟩, rfl⟩⟩
  · exact offered_passes (by decide) (by decide) (by decide) (by decide +kernel)
  · decide

def firstHeader : BlockHeader := headerAt chain 1 100 0
def secondHeader : BlockHeader := headerAt chain 2 200 firstHeader.id

theorem update_second :
    Runs (LightClient.update (offered secondHeader)) (trusting firstHeader) () ((trusting firstHeader).adopted (offered secondHeader)) :=
  LightClient.runs_update.2
    ⟨offered_passes (by decide) (by decide) (by decide) (by decide +kernel), ⟨by decide, rfl⟩, rfl, rfl⟩

theorem light_client_invariant_second :
    LightClient.fromCheckpoint chain firstHeader alone alone = .ok (trusting firstHeader) ∧
    (trusting firstHeader).trusted.height < ((trusting firstHeader).adopted (offered secondHeader)).trusted.height := by
  have hcreated : LightClient.fromCheckpoint chain firstHeader alone alone = .ok (trusting firstHeader) :=
    trusting_created rfl rfl
  refine ⟨hcreated, ?_⟩
  obtain ⟨-, -, -, -, hstep⟩ := light_client_invariant chain firstHeader alone alone (trusting firstHeader) (.inl hcreated) []
    (.update (offered secondHeader))
  exact (hstep _ update_second).1.2 (by decide)

end Sample

/-! ## Staying on the chain -/

/-- The headers of a chain and the sets each of them commits to. Neither heights nor parents are used. -/
structure RealChain [Crypto] where
  headers : Set BlockHeader
  validators : BlockHeader → ValidatorSet
  nextValidators : BlockHeader → ValidatorSet
  hash_validators : ∀ h ∈ headers, (validators h).hash = h.validatorsHash
  hash_nextValidators : ∀ h ∈ headers, (nextValidators h).hash = h.nextValidatorsHash

namespace RealChain

variable [Crypto]

/-- The vote is a precommit for a block that is not one of the chain. -/
def Off (chain : RealChain) (v : Vote) : Prop :=
  v.voteType = .precommit ∧ ∃ id, v.blockId = some id ∧ ∀ h ∈ chain.headers, h.id ≠ id

open Classical in
/-- The members of a set whose keys have signed a block off the chain. -/
noncomputable def faulty (chain : RealChain) (signed : PublicKey → Vote → Prop) (vs : ValidatorSet) : Finset Address :=
  vs.electorate.members.filter fun a => ∃ v ∈ vs.validators, v.address = a ∧ ∃ vote, signed v.publicKey vote ∧ chain.Off vote

open Classical in
theorem mem_faulty {chain : RealChain} {signed : PublicKey → Vote → Prop} {vs : ValidatorSet} {a : Address} :
    a ∈ chain.faulty signed vs ↔ a ∈ vs.electorate.members ∧
      ∃ v ∈ vs.validators, v.address = a ∧ ∃ vote, signed v.publicKey vote ∧ chain.Off vote := Finset.mem_filter

/-- In every set of the chain, those who sign blocks off it have at most the power a Byzantine coalition may have. -/
def FewFaulty (chain : RealChain) (signed : PublicKey → Vote → Prop) : Prop :=
  ∀ h ∈ chain.headers, ∀ vs, vs = chain.validators h ∨ vs = chain.nextValidators h →
    vs.electorate.weightOf (chain.faulty signed vs) ≤ vs.maxByzantinePower.val

/-- Nothing in the offer collides with the chain. -/
structure Apart (chain : RealChain) (o : Offer) : Prop where
  header : ∀ h ∈ chain.headers, o.header.id = h.id → o.header = h
  validators : ∀ h ∈ chain.headers, ∀ vs, vs = chain.validators h ∨ vs = chain.nextValidators h →
    o.validators.hash = vs.hash → o.validators = vs

/-- No signature in the offer is forged: where it verifies, the holder of the key has signed. -/
def Genuine (signed : PublicKey → Vote → Prop) (o : Offer) : Prop :=
  ∀ sv ∈ o.commit.signatures, ∀ pk, sv.verifies pk = true → signed pk sv.vote

/-- The client trusts a header of the chain, with its true set. -/
structure Follows (chain : RealChain) (c : LightClient) : Prop where
  trusted : c.trusted ∈ chain.headers
  validators : c.validators = chain.validators c.trusted

variable {chain : RealChain} {signed : PublicKey → Vote → Prop} {c c' : LightClient} {o : Offer} {vs : ValidatorSet}

theorem mem_of_signer (hgenuine : Genuine signed o) (hapart : chain.Apart o)
    (hbacks : ∀ sv ∈ o.commit.signatures, sv.vote.voteType = .precommit ∧ sv.vote.blockId = some o.header.id)
    {a : Address} (ha : a ∈ LightClient.signersOf vs o.commit.signatures) (hfaulty : a ∉ chain.faulty signed vs) :
    o.header ∈ chain.headers := by
  obtain ⟨hmember, sv, hsv, -, hverifies⟩ := Finset.mem_filter.1 ha
  cases hget : vs.get a with
  | none =>
    rw [hget] at hverifies
    cases hverifies
  | some v =>
    rw [hget] at hverifies
    obtain ⟨hv, haddress⟩ := ValidatorSet.get_eq_some.1 hget
    obtain ⟨htype, hblock⟩ := hbacks sv hsv
    by_contra hoff
    refine hfaulty (mem_faulty.2 ⟨hmember, v, hv, haddress, sv.vote, hgenuine sv hsv v.publicKey hverifies, htype,
      o.header.id, hblock, fun h hh heq => hoff ?_⟩)
    rw [hapart.header h hh heq.symm]
    exact hh

theorem mem_of_weight (vs : ValidatorSet) (hgenuine : Genuine signed o) (hapart : chain.Apart o)
    (hbacks : ∀ sv ∈ o.commit.signatures, sv.vote.voteType = .precommit ∧ sv.vote.blockId = some o.header.id)
    (hfew : vs.electorate.weightOf (chain.faulty signed vs) ≤ vs.maxByzantinePower.val)
    (hmany : vs.maxByzantinePower.val < vs.electorate.weightOf (LightClient.signersOf vs o.commit.signatures)) :
    o.header ∈ chain.headers := by
  rw [← ValidatorSet.electorate_tolerance] at hfew hmany
  obtain ⟨a, ha, hfaulty⟩ := Electorate.exists_not_mem_of_weight hfew hmany
  exact mem_of_signer hgenuine hapart hbacks ha hfaulty

theorem signers_subset {commit : Commit} {chainId : ChainId} :
    commit.signers chainId vs ⊆ LightClient.signersOf vs commit.signatures := by
  intro a ha
  obtain ⟨hmember, sv, hsv, rfl, hback⟩ := Finset.mem_filter.1 ha
  exact Finset.mem_filter.2 ⟨hmember, sv, hsv, rfl, hback.2.2.2.2.2⟩

theorem weight_of_verify {commit : Commit} {chainId : ChainId} (h : commit.verify chainId vs = .ok ()) :
    vs.maxByzantinePower.val < vs.electorate.weightOf (LightClient.signersOf vs commit.signatures) := by
  have hquorum := Commit.verify_ok h
  have hcommon := hquorum.tolerance_lt_inter hquorum
  rw [Finset.inter_self, ValidatorSet.electorate_tolerance] at hcommon
  exact hcommon.trans_le (Electorate.weightOf_mono signers_subset)

theorem Follows.step (h : chain.Follows c) (hfew : chain.FewFaulty signed) {k : Call} (hapart : chain.Apart k.offer)
    (hgenuine : Genuine signed k.offer) (hruns : Runs k.run c () c') : chain.Follows c' := by
  obtain ⟨hpasses, rfl⟩ := LightClient.runs_call hruns
  have hbacks : ∀ sv ∈ k.offer.commit.signatures,
      sv.vote.voteType = .precommit ∧ sv.vote.blockId = some k.offer.header.id := by
    intro sv hsv
    obtain ⟨-, -, htype, hblock, -⟩ := Commit.backs_of_verify hpasses.quorum hsv
    exact ⟨htype, hpasses.commitFor.1 ▸ hblock⟩
  have hnext : c.NamesNext k.offer → k.offer.header ∈ chain.headers := by
    -- the offered set is the next one of the trusted header, and has a quorum
    rintro ⟨-, hnamed⟩
    have hset : k.offer.validators = chain.nextValidators c.trusted := by
      refine hapart.validators c.trusted h.trusted _ (.inr rfl) ?_
      rw [hpasses.validators, hnamed, chain.hash_nextValidators _ h.trusted]
    refine mem_of_weight k.offer.validators hgenuine hapart hbacks ?_ (weight_of_verify hpasses.quorum)
    exact hfew c.trusted h.trusted _ (.inr hset)
  have hmem : k.offer.header ∈ chain.headers := by
    cases k with
    | update o =>
      obtain ⟨-, hnamed, -, -⟩ := LightClient.runs_update.1 hruns
      exact hnext hnamed
    | verifySkipping o =>
      obtain ⟨-, -, hlink, -⟩ := LightClient.runs_verifySkipping.1 hruns
      rcases hlink with hnamed | hoverlap
      · exact hnext hnamed
      · refine mem_of_weight c.validators hgenuine hapart hbacks (hfew c.trusted h.trusted _ (.inl h.validators)) ?_
        have hle := Fin.le_def.1 hoverlap
        have hweight := LightClient.trustedPowerIn_le c o.commit
        have hbyz : c.validators.maxByzantinePower.val < 2 ^ 64 - 1 := by
          simp only [ValidatorSet.maxByzantinePower]
          omega
        have hone : ((1 : U64) : ℕ) = 1 := rfl
        rw [Fin.saturatingAdd_val] at hle
        show _ < c.validators.electorate.weightOf (LightClient.signersOf c.validators o.commit.signatures)
        omega
  refine ⟨hmem, hapart.validators _ hmem _ (.inl rfl) ?_⟩
  exact hpasses.validators.trans (chain.hash_validators _ hmem).symm

end RealChain

theorem light_client_stays_on_chain [Crypto] (chain : RealChain) (signed : PublicKey → Vote → Prop)
    (hfew : chain.FewFaulty signed) (client : LightClient) (hstart : chain.Follows client) (calls : List Call)
    (hapart : ∀ k ∈ calls, chain.Apart k.offer) (hgenuine : ∀ k ∈ calls, RealChain.Genuine signed k.offer) :
    (client.afterAll calls).trusted ∈ chain.headers := by
  suffices hfollows : chain.Follows (client.afterAll calls) from hfollows.trusted
  induction calls generalizing client with
  | nil => exact hstart
  | cons k rest ih =>
    refine ih (client.after k) ?_ (fun k' hk' => hapart k' (.tail _ hk')) fun k' hk' => hgenuine k' (.tail _ hk')
    by_cases haccepts : client.Accepts k
    · exact hstart.step hfew (hapart k (.head _)) (hgenuine k (.head _)) haccepts
    · rwa [LightClient.after_of_not_accepts haccepts]

namespace Sample

/-- The two headers, and the one validator who signs for both heights. -/
def twoHeaders : RealChain where
  headers := {firstHeader, secondHeader}
  validators _ := alone
  nextValidators _ := alone
  hash_validators := by
    rintro h (rfl | rfl)
    · rfl
    · rfl
  hash_nextValidators := by
    rintro h (rfl | rfl)
    · rfl
    · rfl

def signedSecond (_ : PublicKey) (vote : Vote) : Prop := vote.blockId = some secondHeader.id

theorem light_client_stays_on_chain_second :
    ((trusting firstHeader).afterAll [.update (offered secondHeader)]).trusted = secondHeader ∧
    ((trusting firstHeader).afterAll [.update (offered secondHeader)]).trusted ∈ twoHeaders.headers := by
  have hfew : twoHeaders.FewFaulty signedSecond := by
    intro h _ vs _
    have hnone : twoHeaders.faulty signedSecond vs = ∅ := by
      refine Finset.eq_empty_of_forall_notMem fun a ha => ?_
      obtain ⟨-, v, -, -, vote, hsigned, -, id, hid, hoff⟩ := RealChain.mem_faulty.1 ha
      exact hoff secondHeader (.inr rfl) (Option.some.inj (hsigned.symm.trans hid))
    rw [hnone]
    exact Nat.zero_le _
  refine ⟨?_, light_client_stays_on_chain twoHeaders signedSecond hfew (trusting firstHeader) ⟨.inl rfl, rfl⟩ _ ?_ ?_⟩
  · have hafter : (trusting firstHeader).after (.update (offered secondHeader)) =
        (trusting firstHeader).adopted (offered secondHeader) :=
      LightClient.after_of_runs (k := .update (offered secondHeader)) update_second
    rw [LightClient.afterAll, List.foldl_cons, List.foldl_nil, hafter]
    rfl
  · intro k hk
    obtain rfl := List.mem_singleton.1 hk
    refine ⟨?_, fun h _ vs hvs _ => ?_⟩
    · rintro h (rfl | rfl) hid
      · have hne : secondHeader.id ≠ firstHeader.id := by decide +kernel
        exact absurd hid hne
      · rfl
    · rcases hvs with rfl | rfl
      · rfl
      · rfl
  · intro k hk sv hsv pk _
    obtain rfl := List.mem_singleton.1 hk
    obtain rfl := List.mem_singleton.1 hsv
    rfl

end Sample

/-! ## Adjacent headers -/

/-- Skipping to the next height takes what `update` takes if the header is a child of the trusted one and the set is the
one that was named, and only then. -/
theorem skipping_to_next_iff [Crypto] (c c' : LightClient) (o : Offer)
    (hnext : o.header.height.val = c.trusted.height.val + 1) (h : Runs (LightClient.verifySkipping o) c () c') :
    Runs (LightClient.update o) c () c' ↔
      o.header.parent = c.trusted.id ∧ o.header.validatorsHash = c.trusted.nextValidatorsHash := by
  obtain ⟨hpasses, -, -, hafter⟩ := LightClient.runs_verifySkipping.1 h
  rw [LightClient.runs_update]
  constructor
  · rintro ⟨-, ⟨-, hnamed⟩, hparent, -⟩
    exact ⟨hparent, hnamed⟩
  · rintro ⟨hparent, hnamed⟩
    have hheight : o.header.height = c.trusted.height.next := by
      have hlt := o.header.height.isLt
      have hone : (1 : U64).val = 1 := rfl
      rw [Fin.ext_iff, Height.next, Fin.saturatingAdd_val]
      omega
    exact ⟨hpasses, ⟨hheight, hnamed⟩, hparent, hafter⟩

namespace Sample

def orphan : BlockHeader := headerAt chain 2 200 0

/-- `verify_skipping` follows the set and does not ask for the parent. -/
theorem skipping_to_orphan :
    orphan.height.val = (trusting firstHeader).trusted.height.val + 1 ∧
    Runs (LightClient.verifySkipping (offered orphan)) (trusting firstHeader) ()
      ((trusting firstHeader).adopted (offered orphan)) ∧
    ∀ c', ¬ Runs (LightClient.update (offered orphan)) (trusting firstHeader) () c' := by
  refine ⟨rfl, LightClient.runs_verifySkipping.2 ⟨?_, by decide, .inl ⟨by decide, rfl⟩, rfl⟩, ?_⟩
  · exact offered_passes (by decide) (by decide) (by decide) (by decide +kernel)
  · intro c' h
    obtain ⟨-, -, hparent, -⟩ := LightClient.runs_update.1 h
    have hne : orphan.parent ≠ firstHeader.id := by decide +kernel
    exact hne hparent

theorem skipping_to_second :
    Runs (LightClient.update (offered secondHeader)) (trusting firstHeader) ()
      ((trusting firstHeader).adopted (offered secondHeader)) := by
  have hskip : Runs (LightClient.verifySkipping (offered secondHeader)) (trusting firstHeader) ()
      ((trusting firstHeader).adopted (offered secondHeader)) := by
    refine LightClient.runs_verifySkipping.2 ⟨?_, by decide, .inl ⟨by decide, rfl⟩, rfl⟩
    exact offered_passes (by decide) (by decide) (by decide) (by decide +kernel)
  exact (skipping_to_next_iff (trusting firstHeader) _ (offered secondHeader) rfl hskip).2 ⟨rfl, rfl⟩

end Sample

end AfroLink
