import AfroLink.Executor.Lemmas.Validators
import AfroLink.Executor.Theorems.Escrow

/-!
# Validators and evidence

Bonds are filed under operators, validators and evidence under the addresses of keys, and nothing ties the two together.
-/

namespace AfroLink

open Exec

/-! ## The bond behind a validator -/

/-- A report reaches the bond behind a validator exactly if the operator bonded its own key. -/
theorem report_slashes_iff [Crypto] [StateRoot] (happart : ModulesApart) (g : Genesis) (limits : GenesisLimits)
    (block : Block) (start : Store) (hgenesis : Runs (g.apply limits) .empty block start) (e : Executor) (s : Store)
    (hs : Occurs e start s) (set : ValidatorSet) (hset : Runs (Staking.currentSet s.chainParams.staking) s set s)
    (v : Validator) (hv : v ∈ set.validators) (b : Bond) (hb : b ∈ chosenBonds s.bondList s.chainParams.staking)
    (hkey : b.publicKey = v.publicKey) (evidence : Equivocation) (hnamed : evidence.validator = v.address)
    (hshows : evidence.Shows v.publicKey) (ctx : BlockContext) (sender : Address) :
    (∃ s', Runs (applyMessage ctx sender (.reportEquivocation evidence)) s () s' ∧ s'.bondAt b.operator =
      some { b with bonded := Staking.cut b.bonded, jailed := true, jailedAt := some ctx.height }) ↔
    b.operator = Address.fromPublicKey b.publicKey ∧ (s.queueAt b.operator).length ≤ MAX_FIELD_LEN := by
  have hreg := hs.regular happart hgenesis
  obtain ⟨-, hactive, -⟩ := (Staking.runs_currentSet hreg.whole).1 hset
  obtain ⟨hmem, heligible⟩ := mem_of_chosen hb
  have hat := hreg.filed.mem_bondList.1 hmem
  have haddress : evidence.validator = Address.fromPublicKey b.publicKey := by
    rw [hnamed, (mem_activeSet hactive hv).1, hkey]
  constructor
  · rintro ⟨s', hrun, hjailed⟩
    cases slash_step hreg.filed hrun with
    | slash _ _ _ _ hread _ hbonds _ _ _ _ =>
      -- a bond that is not the one named keeps as it is
      have hoperator : b.operator = evidence.validator := by
        by_contra hne
        rw [hbonds, Function.update_of_ne hne, hat, Option.some.injEq] at hjailed
        have := congrArg Bond.jailed hjailed
        rw [heligible.1] at this
        cases this
      rw [hoperator]
      exact ⟨haddress, hreg.whole.queue_readable.1 ⟨_, hread⟩⟩
    | other hm => cases hm
  · rintro ⟨hown, hqueue⟩
    have hoperator : evidence.validator = b.operator := haddress.trans hown.symm
    have hproof : provesEquivocation evidence set = true := provesEquivocation_iff.2 ⟨v, hv, hnamed.symm, hshows⟩
    rw [← hoperator] at hat hqueue
    obtain ⟨s', hrun⟩ := report_runs ctx sender hreg hset hproof hat heligible.1 hqueue
    refine ⟨s', hrun, ?_⟩
    cases slash_step hreg.filed hrun with
    | slash _ _ hb' _ _ _ hbonds _ _ _ _ =>
      cases hat.symm.trans hb'
      rw [hbonds, ← hoperator, Function.update_self]
    | other hm => cases hm

namespace Tagged

open Sample (chain key opened)

def bonders : List (Address × Amount) := [(addressOf 1, 20000000000000), (addressOf 2, 20000000000000)]

def bondersFile : Sample.GenesisFile := ⟨bonders, by decide +kernel⟩

theorem bonders_genesis : ∃ b, Runs ((Sample.genesisOf bonders).apply .devnet) .empty b (opened bonders) :=
  Genesis.apply_of_install bondersFile.installs

def bondsKey (n k : ℕ) : Transaction := sent n 0 [.bond (key k).publicKey .UNSPECIFIED 10000000000000]

/-- The key of `n` votes for a block of its choice at height 7. -/
def votesFor (n : ℕ) (chainId : ChainId) (block : Hash32) : SignedVote :=
  Vote.sign { chainId, height := 7, round := 0, voteType := .precommit, blockId := some block, validator := addressOf n }
    (key n)

def votesTwice (n : ℕ) : Equivocation := ⟨addressOf n, votesFor n chain 1, votesFor n chain 2⟩

theorem votesFor_verifies (n : ℕ) (chainId : ChainId) (block : Hash32) :
    (votesFor n chainId block).verifies (key n).publicKey = true := by
  simp [votesFor, Vote.sign, SignedVote.verifies, SecretKey.publicKey, SecretKey.sign, PublicKey.verify,
    Crypto.verifyStrict, Crypto.sign, Crypto.verifyingKey]

theorem votesTwice_shows (n : ℕ) : (votesTwice n).Shows (key n).publicKey where
  first := rfl
  second := rfl
  height := rfl
  round := rfl
  voteType := rfl
  blockId := by
    intro h
    exact absurd (Option.some.inj h) (by decide)
  firstSigned := votesFor_verifies n chain 1
  secondSigned := votesFor_verifies n chain 2

def lent : Store := (executeTx ⟨chain⟩ ⟨1, 5⟩ (bondsKey 1 2) (opened bonders)).1

theorem lent_occurs : Occurs ⟨chain⟩ (opened bonders) lent := by
  unfold lent
  exact executeTx_occurs _ _ _ _

/-- The key gets the power of a bond that its double votes cannot touch. -/
theorem report_misses_lent_key : (∃ block, Runs ((Sample.genesisOf bonders).apply .devnet) .empty block (opened bonders)) ∧
    Occurs ⟨chain⟩ (opened bonders) lent ∧ ∃ set b v, Runs (Staking.currentSet lent.chainParams.staking) lent set lent ∧
    v ∈ set.validators ∧ b ∈ chosenBonds lent.bondList lent.chainParams.staking ∧ b.publicKey = v.publicKey ∧
    (votesTwice 2).validator = v.address ∧ (votesTwice 2).Shows v.publicKey ∧
    ∀ ctx sender s', ¬ Runs (applyMessage ctx sender (.reportEquivocation (votesTwice 2))) lent () s' := by
  obtain ⟨block, hgenesis⟩ := bonders_genesis
  have hreg := lent_occurs.regular modulesApart hgenesis
  obtain ⟨hchosen, hpowers, hindex, hnone⟩ : chosenBonds lent.bondList lent.chainParams.staking =
        [Bond.new (addressOf 1) (key 2).publicKey .UNSPECIFIED 10000000000000] ∧
      ((chosenPowers lent.bondList lent.chainParams.staking).map (·.val)).sum < 2 ^ 64 ∧
      lent.candidates.length ≤ MAX_FIELD_LEN ∧ lent.bondAt (votesTwice 2).validator = none := by
    decide +kernel
  obtain ⟨set, hset⟩ := activeSet_isOk.2 ⟨by simp [hchosen], by simp [hchosen], hpowers⟩
  obtain ⟨v, hv⟩ := List.exists_mem_of_ne_nil _ set.nonempty
  obtain ⟨haddress, b, hb, hkey⟩ := mem_activeSet hset hv
  have hpk : v.publicKey = (key 2).publicKey := by
    rw [hchosen, List.mem_singleton] at hb
    rw [← hkey, hb]
    rfl
  refine ⟨bonders_genesis, lent_occurs, set, b, v, (Staking.runs_currentSet hreg.whole).2 ⟨hindex, hset, rfl⟩, hv, hb,
    hkey, ?_, ?_, ?_⟩
  · rw [haddress, hpk]
    rfl
  · rw [hpk]
    exact votesTwice_shows 2
  · intro ctx sender s' hrun
    cases slash_step hreg.filed hrun with
    | slash _ _ hb _ _ _ _ _ _ _ _ => cases hnone.symm.trans hb
    | other hm => cases hm

def owned : Store := (executeTx ⟨chain⟩ ⟨1, 5⟩ (bondsKey 1 1) (opened bonders)).1

theorem owned_occurs : Occurs ⟨chain⟩ (opened bonders) owned := by
  unfold owned
  exact executeTx_occurs _ _ _ _

theorem owned_bond :
    owned.bondList = [Bond.new (addressOf 1) (key 1).publicKey .UNSPECIFIED 10000000000000] ∧
    owned.bondAt (addressOf 1) = some (Bond.new (addressOf 1) (key 1).publicKey .UNSPECIFIED 10000000000000) ∧
    owned.queueAt (addressOf 1) = [] ∧ owned.candidates.length ≤ MAX_FIELD_LEN ∧
    owned.chainParams = (Sample.genesisOf bonders).params ∧
    chosenBonds owned.bondList owned.chainParams.staking =
      [Bond.new (addressOf 1) (key 1).publicKey .UNSPECIFIED 10000000000000] := by
  decide +kernel

theorem owned_chosen : chosenBonds owned.bondList owned.chainParams.staking =
    [Bond.new (addressOf 1) (key 1).publicKey .UNSPECIFIED 10000000000000] :=
  owned_bond.2.2.2.2.2

theorem owned_powers : ((chosenPowers owned.bondList owned.chainParams.staking).map (·.val)).sum < 2 ^ 64 := by
  obtain ⟨hlist, -, -, -, hparams, -⟩ := owned_bond
  rw [hlist, hparams]
  decide

theorem owned_set : ∃ set, Runs (Staking.currentSet owned.chainParams.staking) owned set owned ∧
    ∃ v ∈ set.validators, v.publicKey = (key 1).publicKey ∧ v.address = addressOf 1 := by
  obtain ⟨block, hgenesis⟩ := bonders_genesis
  have hreg := owned_occurs.regular modulesApart hgenesis
  obtain ⟨-, -, -, hindex, -⟩ := owned_bond
  obtain ⟨set, hset⟩ := activeSet_isOk.2 ⟨by simp [owned_chosen], by simp [owned_chosen], owned_powers⟩
  obtain ⟨v, hv⟩ := List.exists_mem_of_ne_nil _ set.nonempty
  obtain ⟨haddress, b, hb, hkey⟩ := mem_activeSet hset hv
  rw [owned_chosen, List.mem_singleton] at hb
  have hpk : v.publicKey = (key 1).publicKey := by
    rw [← hkey, hb]
    rfl
  refine ⟨set, (Staking.runs_currentSet hreg.whole).2 ⟨hindex, hset, rfl⟩, v, hv, hpk, ?_⟩
  rw [haddress, hpk]
  rfl

theorem report_slashes_iff_owned : ∃ s', Runs (applyMessage ⟨8, 9⟩ (addressOf 2) (.reportEquivocation (votesTwice 1)))
    owned () s' ∧ (s'.bondAt (addressOf 1)).map (·.jailed) = some true := by
  obtain ⟨block, hgenesis⟩ := bonders_genesis
  obtain ⟨set, hset, v, hv, hpk, haddress⟩ := owned_set
  have hqueue : (owned.queueAt (addressOf 1)).length ≤ MAX_FIELD_LEN := by
    obtain ⟨-, -, hqueue, -⟩ := owned_bond
    simp [hqueue]
  have hshows : (votesTwice 1).Shows v.publicKey := by
    rw [hpk]
    exact votesTwice_shows 1
  obtain ⟨b, hb, hoperator, hkey⟩ : ∃ b ∈ chosenBonds owned.bondList owned.chainParams.staking,
      b.operator = addressOf 1 ∧ b.publicKey = (key 1).publicKey := by
    rw [owned_chosen]
    exact ⟨_, .head _, rfl, rfl⟩
  have hown : b.operator = Address.fromPublicKey b.publicKey := by
    rw [hoperator, hkey]
    rfl
  obtain ⟨s', hrun, hbond⟩ := (report_slashes_iff modulesApart _ _ block _ hgenesis ⟨chain⟩ owned owned_occurs set hset v
    hv b hb (hkey.trans hpk.symm) (votesTwice 1) haddress.symm hshows ⟨8, 9⟩ (addressOf 2)).2
    ⟨hown, hoperator ▸ hqueue⟩
  refine ⟨s', hrun, ?_⟩
  rw [← hoperator, hbond]
  rfl

end Tagged

/-! ## When the bonds make a set -/

/-- The bonds make a set unless two chosen keys share an address or their powers overflow. Neither happens where every
bond brings a fresh key and the coins there are do not fill a word with votes. -/
theorem activeSet_iff [Crypto] [StateRoot] (happart : ModulesApart) (g : Genesis) (limits : GenesisLimits) (block : Block)
    (start : Store) (hgenesis : Runs (g.apply limits) .empty block start) (e : Executor) (s : Store)
    (hs : Occurs e start s) (p : ChainParams) (hp : p.validate = .ok ()) (operator : Address) (b : Bond)
    (hb : s.bondAt operator = some b) (heligible : b.Eligible p.staking) :
    ((∃ set, activeSet s.bondList p.staking = .ok set ∧ 1 ≤ set.validators.length ∧
        set.validators.length ≤ p.staking.maxValidators.val) ↔
      ((chosenBonds s.bondList p.staking).map fun b => Address.fromPublicKey b.publicKey).Nodup ∧
        ((chosenPowers s.bondList p.staking).map (·.val)).sum < 2 ^ 64) ∧
    (OccursWhere StoreEvent.FreshKey e start s →
      (s.ledger .native).supply / Amount.SENTE_PER_AFRI + p.staking.maxValidators.val < 2 ^ 64 →
      ∃ set, activeSet s.bondList p.staking = .ok set ∧ 1 ≤ set.validators.length ∧
        set.validators.length ≤ p.staking.maxValidators.val) ∧
    ∀ set, Runs (Staking.currentSet p.staking) s set s ↔
      s.candidates.length ≤ MAX_FIELD_LEN ∧ activeSet s.bondList p.staking = .ok set := by
  have hreg := hs.regular happart hgenesis
  have hne := chosen_ne_nil (hreg.filed.mem_of_bondAt hb) heligible (maxValidators_pos hp)
  have hiff : (∃ set, activeSet s.bondList p.staking = .ok set ∧ 1 ≤ set.validators.length ∧
      set.validators.length ≤ p.staking.maxValidators.val) ↔
      ((chosenBonds s.bondList p.staking).map fun b => Address.fromPublicKey b.publicKey).Nodup ∧
        ((chosenPowers s.bondList p.staking).map (·.val)).sum < 2 ^ 64 := by
    constructor
    · rintro ⟨set, hset, -⟩
      exact (activeSet_isOk.1 ⟨set, hset⟩).2
    · intro hfits
      obtain ⟨set, hset⟩ := activeSet_isOk.2 ⟨hne, hfits⟩
      refine ⟨set, hset, List.length_pos_iff.2 set.nonempty, ?_⟩
      rw [length_activeSet hset]
      exact length_chosen_le
  refine ⟨hiff, fun hfresh hsupply => hiff.2 ⟨?_, ?_⟩, fun set => ?_⟩
  · exact (hfresh.keysApart happart hgenesis).chosen_nodup hreg.filed (hs.indexed happart hgenesis)
  · exact (hreg.chosen_sum_le (hs.indexed happart hgenesis)).trans_lt hsupply
  · rw [Staking.runs_currentSet hreg.whole]
    exact ⟨fun h => ⟨h.1, h.2.1⟩, fun h => ⟨h.1, h.2, rfl⟩⟩

namespace Tagged

open Sample (chain key opened)

def doubled : Store :=
  executeBlocks ⟨chain⟩ [(⟨1, 5⟩, [bondsKey 1 1]), (⟨2, 6⟩, [bondsKey 2 1])] (opened bonders)

/-- Each of the two bonds is large enough, and together they leave the chain without a validator set. -/
theorem activeSet_fails_doubled :
    (∃ block, Runs ((Sample.genesisOf bonders).apply .devnet) .empty block (opened bonders)) ∧
    Occurs ⟨chain⟩ (opened bonders) doubled ∧ doubled.chainParams.validate = .ok () ∧
    (∃ b, doubled.bondAt (addressOf 1) = some b ∧ b.jailed = false ∧ doubled.chainParams.staking.minBond ≤ b.bonded) ∧
    ∀ set, activeSet doubled.bondList doubled.chainParams.staking ≠ .ok set := by
  obtain ⟨hvalid, hbond, hmin, hclash⟩ : doubled.chainParams.validate = .ok () ∧
      doubled.bondAt (addressOf 1) = some (Bond.new (addressOf 1) (key 1).publicKey .UNSPECIFIED 10000000000000) ∧
      doubled.chainParams.staking.minBond ≤ (10000000000000 : Amount) ∧
      ¬ ((chosenBonds doubled.bondList doubled.chainParams.staking).map fun b =>
        Address.fromPublicKey b.publicKey).Nodup := by
    decide +kernel
  have hoccurs : Occurs ⟨chain⟩ (opened bonders) doubled := by
    unfold doubled
    exact executeBlocks_occurs _ _ _
  refine ⟨bonders_genesis, hoccurs, hvalid, ⟨_, hbond, rfl, hmin⟩, fun set hset => ?_⟩
  exact hclash (activeSet_isOk.1 ⟨set, hset⟩).2.1

theorem activeSet_iff_owned : ∃ set, activeSet owned.bondList owned.chainParams.staking = .ok set ∧
    1 ≤ set.validators.length ∧ set.validators.length ≤ 100 := by
  obtain ⟨block, hgenesis⟩ := bonders_genesis
  obtain ⟨-, hbond, -, -, hparams, -⟩ := owned_bond
  have hvalid : owned.chainParams.validate = .ok () := by
    rw [hparams]
    decide
  have hmax : owned.chainParams.staking.maxValidators.val = 100 := by rw [hparams]; rfl
  have hmin : owned.chainParams.staking.minBond ≤ (10000000000000 : Amount) := by
    rw [hparams]
    decide
  rw [← hmax]
  exact (activeSet_iff modulesApart _ _ block _ hgenesis ⟨chain⟩ owned owned_occurs owned.chainParams hvalid
    (addressOf 1) _ hbond ⟨rfl, hmin⟩).1.2 ⟨by simp [owned_chosen], owned_powers⟩

end Tagged

/-! ## Honest keys -/

namespace Tagged

open Sample (chain key opened)

end Tagged

end AfroLink
