import AfroLink.Executor.Theorems.Accounts
import AfroLink.Executor.Lemmas.Regular

/-!
# The stake is there

In every state of a chain the staking account holds at least what is bonded and what waits to be withdrawn, and
exactly that as long as nobody pays it anything but stake.
-/

namespace AfroLink

open Exec

/-- `s` occurs in a run from `start` in which nobody pays the staking account anything but stake. -/
def OccursUngifted [Crypto] [StateRoot] (e : Executor) (start s : Store) : Prop :=
  ∃ blocks es, es <+: runEvents e blocks start ∧
    Trace (fun s es s' => Emits s es s' ∧ ∀ ev ∈ es, ev.gift s = 0) start es s

theorem OccursUngifted.held [Crypto] [StateRoot] {g : Genesis} {limits : GenesisLimits} {b : Block} {start s : Store}
    {e : Executor} (h : OccursUngifted e start s) (happart : ModulesApart)
    (hgenesis : Runs (g.apply limits) .empty b start) :
    s.escrow.held = s.escrow.debt + (start.ledger .native).balance stakingAccount := by
  obtain ⟨blocks, es, hes, htrace⟩ := h
  have howned : ∀ ev ∈ es, ev.Owned := fun ev hev =>
    runEvents_owned happart.keyGroup (Genesis.apply_guarded hgenesis) (Genesis.apply_keyed hgenesis) ev (hes.subset hev)
  refine ((htrace.restrict howned).preserves (I := fun s => s.Regular ∧
    s.escrow.held = s.escrow.debt + (start.ledger .native).balance stakingAccount) ?_ ?_).2
  · rintro s as t ⟨hs, hheld⟩ ⟨⟨hemits, hgift⟩, howned⟩
    have hacts : Acts s as t := ⟨hemits, howned⟩
    have hmove := hacts.escrow happart.toAddressesApart happart.collector hs.guarded hs.filed
    have hzero : (as.map fun ev => ev.gift s).sum = 0 := List.sum_eq_zero fun x hx => by
      obtain ⟨ev, hev, rfl⟩ := List.mem_map.1 hx
      exact hgift ev hev
    rw [hzero] at hmove
    exact ⟨hacts.regular happart hs, Escrow.surplus_of_move hheld hmove⟩
  · refine ⟨Genesis.apply_regular hgenesis, ?_⟩
    rw [Genesis.apply_debt hgenesis, Nat.zero_add]
    rfl

theorem occurs_stake_backed [Crypto] [StateRoot] (happart : ModulesApart) (g : Genesis) (limits : GenesisLimits)
    (b : Block) (start : Store) (hgenesis : Runs (g.apply limits) .empty b start) (e : Executor) (s : Store)
    (hs : Occurs e start s) :
    ∑ a, s.stakeOf a ≤ (s.ledger .native).balance stakingAccount ∧
    (OccursUngifted e start s → (s.ledger .native).balance stakingAccount =
      ∑ a, s.stakeOf a + (start.ledger .native).balance stakingAccount) ∧
    (∀ operator now, wp (Staking.withdraw operator now) (fun _ _ => True)
      (fun err _ => err = .nothingMatured ∨ ∃ reason, err = .state (.corrupt "bond" reason)) s) ∧
    ∀ operator infraction now, wp (Staking.slash operator infraction now) (fun _ _ => True)
      (fun err _ => err = .noSuchBond ∨ err = .alreadyJailed ∨ ∃ reason, err = .state (.corrupt "bond" reason)) s := by
  have hreg := hs.regular happart hgenesis
  have hheld : ∀ operator, s.stakeOf operator ≤ (s.ledger .native).balance stakingAccount := hreg.backed.owed_le
  refine ⟨hreg.backed, fun hungifted => hungifted.held happart hgenesis, fun operator now => ?_,
    fun operator infraction now => ?_⟩
  · refine Staking.withdraw_fails hreg.whole (hreg.balanced .native) hreg.unfrozen ?_
    exact le_trans (Nat.le_add_left _ _) (hheld operator)
  · refine Staking.slash_fails hreg.whole (fun bond hbond => ?_) ?_
    · have := hheld operator
      rwa [Store.stakeOf, hbond] at this
    · have hbalanced := hreg.balanced .native
      unfold Ledger.Balanced at hbalanced
      rw [← hbalanced]
      exact Ledger.balance_le_held _ _

namespace Tagged

open Sample (chain key opened)

theorem modulesApart : ModulesApart where
  keyGroup := groupAddressesApart
  keyModule := by
    intro pk seed h
    have hkey := derived_head .address pk.toBytes
    have hmodule := derived_head .moduleAddress seed
    rw [show Address.derived .address pk.toBytes = Address.derived .moduleAddress seed from h, hmodule] at hkey
    cases hkey
  groupModule := by
    intro seed seed' h
    have hgroup := derived_head .groupAddress seed
    have hmodule := derived_head .moduleAddress seed'
    rw [h, hmodule] at hgroup
    cases hgroup
  collector := by decide +kernel

def stakers : List (Address × Amount) := [(addressOf 1, 20000000000000)]

def stakersFile : Sample.GenesisFile := ⟨stakers, by decide +kernel⟩

theorem stakers_genesis : ∃ b, Runs ((Sample.genesisOf stakers).apply .devnet) .empty b (opened stakers) :=
  Genesis.apply_of_install stakersFile.installs

def sent (n : ℕ) (nonce : U64) (messages : List Message) : Transaction :=
  TxBody.sign
    { chainId := chain, sender := addressOf n, nonce, validUntil := 10
      fee := { amount := 10, denom := Denom.native, payer := none }, messages, memo := "" } (key n)

/-- Account 1 bonds the least a validator may, and queues part of it. -/
def bonding : Transaction :=
  sent 1 0 [.bond (key 1).publicKey .UNSPECIFIED 10000000000000, .unbond 4000000000000]

/-- What is bonded and what is queued are held together. -/
theorem occurs_stake_backed_bonding :
    ∑ a, (executeBlocks ⟨chain⟩ [(⟨1, 5⟩, [bonding])] (opened stakers)).stakeOf a ≤ 10000000000000 := by
  obtain ⟨b, hgenesis⟩ := stakers_genesis
  have hheld : ((executeTx ⟨chain⟩ ⟨1, 5⟩ bonding (opened stakers)).1.ledger .native).balance stakingAccount =
      10000000000000 := by
    decide +kernel
  have hbacked := (occurs_stake_backed modulesApart _ _ b _ hgenesis ⟨chain⟩ _
    (executeBlocks_occurs ⟨chain⟩ [(⟨1, 5⟩, [bonding])] (opened stakers))).1
  rw [executeBlocks_singleton] at hbacked ⊢
  exact hbacked.trans hheld.le

end Tagged

end AfroLink
