import AfroLink.Executor.Lemmas.Queue
import AfroLink.Executor.Theorems.Validators

/-!
# Slashing what is on its way out

Evidence is looked at under the active set of the block it arrives in.
-/

namespace AfroLink

open Exec

/-- At least a twentieth, rounded down, is gone from the bond and from everything queued at `h` or later, and the coins
with it. -/
structure PartsDestroyed (operator : Address) (h : Height) (s s' : Store) : Prop where
  bond : ∃ b b', s.bondAt operator = some b ∧ s'.bondAt operator = some b' ∧
    b'.bonded.val + b.bonded.val / 20 ≤ b.bonded.val
  queue : List.Forall₂ (fun u u' => h ≤ u.startedAt → u'.amount.val + u.amount.val / 20 ≤ u.amount.val)
    (s.queueAt operator) (s'.queueAt operator)
  supply : (s'.ledger .native).supply + s.stakeOf operator = (s.ledger .native).supply + s'.stakeOf operator

theorem Staking.cut_add_le_iff (x : Amount) :
    (cut x).val + x.val / 20 ≤ x.val ↔ x.val / 20 ≤ (2 ^ 128 - 1) / 10000 := by
  have hsplit := cut_add_fraction x
  have hfraction : (fraction x SLASH_EQUIVOCATION_BPS).val = min (x.val * 500) (2 ^ 128 - 1) / 10000 := rfl
  omega

theorem Staking.slashEntry_le_iff (h : Height) (u : Unbonding) :
    (h ≤ u.startedAt → (slashEntry h u).amount.val + u.amount.val / 20 ≤ u.amount.val) ↔
      (u.startedAt = h → u.amount.val < 20) ∧ (h < u.startedAt → u.amount.val / 20 ≤ (2 ^ 128 - 1) / 10000) := by
  unfold slashEntry Unbonding.covers
  rcases lt_trichotomy h u.startedAt with hlt | rfl | hgt
  · simp [hlt, hlt.le, hlt.ne', cut_add_le_iff]
  · simp
  · simp [hgt.not_ge, hgt.ne, hgt.not_gt]

theorem partsDestroyed_iff [Crypto] {ctx : BlockContext} {sender : Address} {s s' : Store} {evidence : Equivocation} {b : Bond}
    (hb : s.bondAt evidence.validator = some b) (hstep : StakeStep ctx sender s s' (.reportEquivocation evidence)) :
    PartsDestroyed evidence.validator evidence.first.vote.height s s' ↔
      b.bonded.val / 20 ≤ (2 ^ 128 - 1) / 10000 ∧ ∀ u ∈ s.queueAt evidence.validator,
        (u.startedAt = evidence.first.vote.height → u.amount.val < 20) ∧
        (evidence.first.vote.height < u.startedAt → u.amount.val / 20 ≤ (2 ^ 128 - 1) / 10000) := by
  cases hstep with
  | @slash _ _ c _ total _ _ hc _ _ htotal hbonds hqueues _ _ hsupply =>
    cases hb.symm.trans hc
    have hbond : s'.bondAt evidence.validator =
        some { b with bonded := Staking.cut b.bonded, jailed := true, jailedAt := some ctx.height } := by
      rw [hbonds, Function.update_self]
    have hqueue : s'.queueAt evidence.validator =
        (s.queueAt evidence.validator).map (Staking.slashEntry evidence.first.vote.height) := by
      rw [hqueues, Function.update_self]
    have hdestroyed : (s'.ledger .native).supply + s.stakeOf evidence.validator =
        (s.ledger .native).supply + s'.stakeOf evidence.validator := by
      have hcut := Staking.cut_add_fraction b.bonded
      have hle := Staking.queued_slash_le evidence.first.vote.height (s.queueAt evidence.validator)
      simp only [Store.stakeOf, hb, hbond, hqueue, Option.elim_some]
      unfold Staking.slashTotal at htotal
      omega
    constructor
    · rintro ⟨⟨c, c', hc, hc', hcut⟩, hparts, -⟩
      cases hb.symm.trans hc
      cases hbond.symm.trans hc'
      refine ⟨(Staking.cut_add_le_iff _).1 hcut, fun u hu => (Staking.slashEntry_le_iff _ u).1 ?_⟩
      rw [hqueue, List.forall₂_map_right_iff, List.forall₂_same] at hparts
      exact hparts u hu
    · rintro ⟨hbonded, hparts⟩
      refine ⟨⟨b, _, hb, hbond, (Staking.cut_add_le_iff _).2 hbonded⟩, ?_, hdestroyed⟩
      rw [hqueue, List.forall₂_map_right_iff, List.forall₂_same]
      exact fun u hu => (Staking.slashEntry_le_iff _ u).2 (hparts u hu)
  | other hm => cases hm

theorem report_reaches_stake_iff [Crypto] [StateRoot] (happart : ModulesApart) (g : Genesis) (limits : GenesisLimits)
    (block : Block) (start : Store) (hgenesis : Runs (g.apply limits) .empty block start) (e : Executor)
    (before later : List (BlockContext × List Transaction)) (h : Height) (hbefore : ∀ bl ∈ before, bl.1.height < h)
    (hlater : ∀ bl ∈ later, h ≤ bl.1.height) (s : Store) (hs : OccursIn later e (executeBlocks e before start) s)
    (pk : PublicKey) (b : Bond) (hb : s.bondAt (Address.fromPublicKey pk) = some b) (hjailed : b.jailed = false)
    (hkeys : ∀ a k, s.keyAt a = some k → Address.fromPublicKey k = Address.fromPublicKey pk → k = pk)
    (evidence : Equivocation) (hnamed : evidence.validator = Address.fromPublicKey pk) (hshows : evidence.Shows pk)
    (hheight : evidence.first.vote.height = h) (ctx : BlockContext) (sender : Address) :
    (∀ u ∈ (executeBlocks e before start).queueAt (Address.fromPublicKey pk), u.startedAt < h) ∧
    (queuedBefore h (s.queueAt (Address.fromPublicKey pk))).Sublist
      ((executeBlocks e before start).queueAt (Address.fromPublicKey pk)) ∧
    ((∃ s', Runs (applyMessage ctx sender (.reportEquivocation evidence)) s () s' ∧
        PartsDestroyed (Address.fromPublicKey pk) h s s') ↔
      (∃ set, Runs (Staking.currentSet s.chainParams.staking) s set s ∧
        ∃ v ∈ set.validators, v.address = Address.fromPublicKey pk) ∧
      (s.queueAt (Address.fromPublicKey pk)).length ≤ MAX_FIELD_LEN ∧
      b.bonded.val / 20 ≤ (2 ^ 128 - 1) / 10000 ∧
      ∀ u ∈ s.queueAt (Address.fromPublicKey pk), (u.startedAt = h → u.amount.val < 20) ∧
        (h < u.startedAt → u.amount.val / 20 ≤ (2 ^ 128 - 1) / 10000)) := by
  have hreg := hs.after.occurs.regular happart hgenesis
  have hfiled := (executeBlocks_occurs e before start).regular happart hgenesis |>.filed
  refine ⟨Genesis.queue_startedAt hgenesis executeBlocks_occursIn hbefore, ?_, ?_⟩
  · have hold : s.Jailed (Address.fromPublicKey pk) ∨ (queuedBefore h (s.queueAt (Address.fromPublicKey pk))).Sublist
        (queuedBefore h ((executeBlocks e before start).queueAt (Address.fromPublicKey pk))) :=
      hs.queuedBefore hfiled hlater
    rcases hold with ⟨c, hc, hslashed⟩ | hsub
    · cases hb.symm.trans hc
      rw [hjailed] at hslashed
      cases hslashed
    · exact hsub.trans List.filter_sublist
  · rw [← hnamed] at hb hkeys ⊢
    rw [← hheight]
    constructor
    · rintro ⟨s', hrun, hparts⟩
      have hstep := slash_step hreg.filed hrun
      have hmember : (∃ set, Runs (Staking.currentSet s.chainParams.staking) s set s ∧
          ∃ v ∈ set.validators, v.address = evidence.validator) ∧
          (s.queueAt evidence.validator).length ≤ MAX_FIELD_LEN := by
        cases hstep with
        | slash hset hproof _ _ hread _ _ _ _ _ _ =>
          obtain ⟨v, hv, haddress, -⟩ := provesEquivocation_iff.1 hproof
          exact ⟨⟨_, hset, v, hv, haddress⟩, hreg.whole.queue_readable.1 ⟨_, hread⟩⟩
        | other hm => cases hm
      exact ⟨hmember.1, hmember.2, (partsDestroyed_iff hb hstep).1 hparts⟩
    · rintro ⟨⟨set, hset, v, hv, haddress⟩, hqueue, hparts⟩
      obtain ⟨-, hactive, -⟩ := (Staking.runs_currentSet hreg.whole).1 hset
      obtain ⟨hown, c, hchosen, hkey⟩ := mem_activeSet hactive hv
      -- the member at this address has the key that signed
      have hpk : v.publicKey = pk := by
        refine hkeys c.operator v.publicKey ?_ (hown.symm.trans haddress)
        rw [Store.keyAt, hreg.filed.mem_bondList.1 (mem_of_chosen hchosen).1, Option.map_some, hkey]
      have hproof : provesEquivocation evidence set = true :=
        provesEquivocation_iff.2 ⟨v, hv, haddress, hpk.symm ▸ hshows⟩
      obtain ⟨s', hrun⟩ := report_runs ctx sender hreg hset hproof hb hjailed hqueue
      exact ⟨s', hrun, (partsDestroyed_iff hb (slash_step hreg.filed hrun)).2 hparts⟩

namespace Tagged

open Sample (chain key opened)

def staked : Store := executeBlocks ⟨chain⟩ [(⟨1, 5⟩, [bondsKey 1 1, bondsKey 2 2])] (opened bonders)

/-- After voting twice at height 7, account 1 unbonds everything. -/
def leaving : List (BlockContext × List Transaction) := [(⟨8, 9⟩, [sent 1 1 [.unbond 10000000000000]])]

def reporting : Transaction := sent 2 1 [.reportEquivocation (votesTwice 1)]

/-- The stake is still in the queue when the report comes, and none of it is destroyed. -/
theorem unbonding_escapes_report :
    (∃ block, Runs ((Sample.genesisOf bonders).apply .devnet) .empty block (opened bonders)) ∧
    (match activeSet staked.bondList staked.chainParams.staking with
      | .ok set => (set.get (addressOf 1)).isSome
      | .error _ => false) = true ∧
    (votesTwice 1).Shows (key 1).publicKey ∧ (votesTwice 1).first.vote.height = 7 ∧
    staked.stakeOf (addressOf 1) = 10000000000000 ∧
    (executeTx ⟨chain⟩ ⟨9, 10⟩ reporting (executeBlocks ⟨chain⟩ leaving staked)).1.bondAt (addressOf 1) =
      some (Bond.new (addressOf 1) (key 1).publicKey .UNSPECIFIED 0) ∧
    ((executeTx ⟨chain⟩ ⟨9, 10⟩ reporting (executeBlocks ⟨chain⟩ leaving staked)).1.queueAt (addressOf 1)).map (·.amount) =
      [10000000000000] := by
  refine ⟨bonders_genesis, ?_, votesTwice_shows 1, rfl, ?_⟩ <;> decide +kernel

theorem owned_keys {a : Address} {k : PublicKey} (h : owned.keyAt a = some k) : k = (key 1).publicKey := by
  obtain ⟨block, hgenesis⟩ := bonders_genesis
  have hreg := owned_occurs.regular modulesApart hgenesis
  obtain ⟨hlist, -⟩ := owned_bond
  obtain ⟨b, hb, rfl⟩ := Option.map_eq_some_iff.1 h
  have hmem := hreg.filed.mem_of_bondAt hb
  rw [hlist, List.mem_singleton] at hmem
  rw [hmem]
  rfl

theorem owned_occursIn : OccursIn [] ⟨chain⟩ (executeBlocks ⟨chain⟩ [(⟨1, 5⟩, [bondsKey 1 1])] (opened bonders)) owned := by
  rw [executeBlocks_singleton, ← owned]
  exact OccursIn.refl

theorem report_reaches_stake_iff_owned : ∃ s', Runs (applyMessage ⟨8, 9⟩ (addressOf 2) (.reportEquivocation (votesTwice 1)))
    owned () s' ∧ PartsDestroyed (addressOf 1) 7 owned s' := by
  obtain ⟨block, hgenesis⟩ := bonders_genesis
  obtain ⟨set, hset, v, hv, hpk, haddress⟩ := owned_set
  obtain ⟨-, hbond, hqueue, -⟩ := owned_bond
  have hbefore : ∀ bl ∈ [((⟨1, 5⟩ : BlockContext), [bondsKey 1 1])], bl.1.height < 7 := by
    intro bl hbl
    rw [List.mem_singleton.1 hbl]
    decide
  refine (report_reaches_stake_iff modulesApart _ _ block _ hgenesis ⟨chain⟩ _ [] 7 hbefore nofun owned owned_occursIn
    (key 1).publicKey _ hbond rfl (fun a k hk _ => owned_keys hk) (votesTwice 1) rfl (votesTwice_shows 1) rfl ⟨8, 9⟩
    (addressOf 2)).2.2.2 ⟨⟨set, hset, v, hv, haddress⟩, ?_, ?_, ?_⟩
  · rw [show Address.fromPublicKey (key 1).publicKey = addressOf 1 from rfl, hqueue]
    exact Nat.zero_le _
  · decide
  · rw [show Address.fromPublicKey (key 1).publicKey = addressOf 1 from rfl, hqueue]
    exact nofun

end Tagged

end AfroLink
