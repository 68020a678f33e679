import AfroLink.Executor.Theorems.Accounts
import AfroLink.Node.Lemmas.Mempool
import AfroLink.Node.Theorems.Blocks

/-!
# What a block takes out of the mempool

A pending transaction that a retired height drops while it can still be included is one whose key the block names.
-/

namespace AfroLink

open Exec

/-- The block spends the nonce of every pending transaction whose key it names and that has not expired, unless an
earlier block has. -/
def Node.NamesOnlySpent [Crypto] (n : Node) (block : Block) : Prop :=
  ∀ t, n.mempool.Holds t → n.height.next ≤ t.body.validUntil → t.key ∈ block.transactions.map Transaction.key →
    t.body.nonce < (readOrFresh n.store t.body.sender).nonce ∨ t.body.nonce.val + 1 < 2 ^ 64 ∧
      spends n.executor ⟨n.height, block.header.time⟩ t.body.sender t.body.nonce block.transactions n.store = true

theorem evicts_only_spent_iff [Crypto] [StateRoot] (happart : GroupAddressesApart) (g : Genesis) (limits : GenesisLimits)
    (genesis : Block) (start : Store) (hgenesis : Runs (g.apply limits) .empty genesis start) (e : Executor)
    (blocks : List (BlockContext × List Transaction)) (n n' : Node) (hstore : n.store = executeBlocks e blocks start)
    (block : Block) (commit : Commit)
    (hadvance : (∃ blockId, n.commit blockId = (n', [.committed block commit])) ∨
      n.applySynced block commit = (n', .ok [.committed block commit])) :
    (∀ t, n.mempool.Holds t → ¬ n'.mempool.Holds t → t.body.validUntil < n'.height ∨
      t.body.nonce < (readOrFresh n'.store t.body.sender).nonce) ↔ n.NamesOnlySpent block := by
  obtain rfl := Node.retired_of_advance hadvance
  have hguarded : n.store.Guarded := by
    rw [hstore]
    exact executeBlocks_guarded happart (Genesis.apply_guarded hgenesis)
  have hafter : (n.retired block commit).store.Guarded := executeTxs_guarded happart hguarded
  -- the nonce in the new state is spent before, or by a transaction of the block
  have hspent : ∀ t : Transaction, t.body.nonce < (readOrFresh (n.retired block commit).store t.body.sender).nonce ↔
      t.body.nonce < (readOrFresh n.store t.body.sender).nonce ∨ t.body.nonce.val + 1 < 2 ^ 64 ∧
        spends n.executor ⟨n.height, block.header.time⟩ t.body.sender t.body.nonce block.transactions n.store = true := by
    intro t
    rw [(readOrFresh_guarded (hafter t.body.sender)).2.1, (readOrFresh_guarded (hguarded t.body.sender)).2.1]
    exact lt_executeTxs_nonce_iff happart hguarded
  have hheight : (n.retired block commit).height = n.height.next := rfl
  rw [hheight]
  constructor
  · intro h t hheld hvalid hnamed
    refine (hspent t).1 ((h t hheld ?_).resolve_left hvalid.not_gt)
    rw [Node.retired_holds_iff]
    exact fun hstays => hstays.2.1 hnamed
  · intro h t hheld hgone
    rw [hspent]
    by_cases hvalid : n.height.next ≤ t.body.validUntil
    · refine .inr (h t hheld hvalid ?_)
      by_contra hnamed
      exact hgone (Node.retired_holds_iff.2 ⟨hheld, hnamed, hvalid⟩)
    · exact .inl (lt_of_not_ge hvalid)

namespace Tagged

open Sample (chain key opened genesis genesisOf)

def alone : ValidatorSet where
  validators := [Validator.new (key 1).publicKey 1 .UNSPECIFIED]
  totalPower := 1
  nonempty := by simp
  positive := by simp [Validator.new]
  sorted := by simp
  total := by simp [Validator.new]

/-- The node of the one validator, with the payment of account 1 pending. -/
def pending : Node :=
  ((Node.new chain (key 1) alone (opened holders) genesis (.inMemory none)).handle (.transaction payment)).1

theorem pending_store : pending.store = opened holders := by
  obtain ⟨waits, signing, reported, refusals, begun, mempool, hpending⟩ :=
    (Node.submitAndRelay_quiet (Node.new chain (key 1) alone (opened holders) genesis (.inMemory none)) payment).1
  rw [pending, Node.handle, hpending, Node.new]

/-- The precommit of the one validator, as a certificate. -/
def certificate (block : Block) : Commit :=
  { height := 1, round := 0, blockId := block.header.id
    signatures := [pending.ownVote .precommit (some block.header.id)] }

def forgery : Transaction := payment.body.sign (key 2)

def forgedBlock : Block := pending.buildBlock 200 [forgery]

/-- The block is taken, the payment is gone, and nothing has been spent. -/
theorem evicts_by_forgery :
    (∃ b, Runs ((genesisOf holders).apply .devnet) .empty b (opened holders)) ∧ pending.store = opened holders ∧
    pending.mempool.Holds payment ∧
    ∃ n', pending.applySynced forgedBlock (certificate forgedBlock) =
        (n', .ok [.committed forgedBlock (certificate forgedBlock)]) ∧
      ¬ n'.mempool.Holds payment ∧ n'.height ≤ payment.body.validUntil ∧
      (readOrFresh n'.store payment.body.sender).nonce ≤ payment.body.nonce := by
  obtain ⟨hvalid, hcertified, hheld⟩ : pending.validateBlock forgedBlock = true ∧
      pending.Certifies forgedBlock (certificate forgedBlock) ∧ pending.mempool.Holds payment := by
    decide +kernel
  refine ⟨holders_genesis, pending_store, hheld, _, Node.applySynced_of_certified hvalid hcertified, ?_⟩
  decide +kernel

def paidBlock : Block := pending.buildBlock 200 [payment]

theorem evicts_only_spent_iff_paid :
    pending.mempool.Holds payment ∧ ¬ (pending.retired paidBlock (certificate paidBlock)).mempool.Holds payment ∧
    ∀ t, pending.mempool.Holds t → ¬ (pending.retired paidBlock (certificate paidBlock)).mempool.Holds t →
      t.body.validUntil < (pending.retired paidBlock (certificate paidBlock)).height ∨
      t.body.nonce < (readOrFresh (pending.retired paidBlock (certificate paidBlock)).store t.body.sender).nonce := by
  obtain ⟨b, hgenesis⟩ := holders_genesis
  obtain ⟨hvalid, hcertified, hheld⟩ : pending.validateBlock paidBlock = true ∧
      pending.Certifies paidBlock (certificate paidBlock) ∧ pending.mempool.Holds payment := by
    decide +kernel
  refine ⟨hheld, by decide +kernel, (evicts_only_spent_iff groupAddressesApart _ _ b _ hgenesis ⟨chain⟩ [] pending _ pending_store
    paidBlock (certificate paidBlock) (.inr (Node.applySynced_of_certified hvalid hcertified))).2 ?_⟩
  intro t ht _ hnamed
  have hnames : paidBlock.transactions.map Transaction.key = [payment.key] := by decide +kernel
  have hkey : t.key = payment.key := by
    rw [hnames] at hnamed
    exact List.mem_singleton.1 hnamed
  obtain rfl : t = payment := by
    rw [Mempool.Holds, hkey] at ht
    exact Option.some.inj (ht.symm.trans hheld)
  exact .inr (by decide +kernel)

end Tagged

end AfroLink
