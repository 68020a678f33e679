import AfroLink.Consensus.Theorems
import AfroLink.Executor.Theorems.Money
import AfroLink.Node.Lemmas.Times

/-!
# What a node knows of the blocks it takes

A header a node accepts is its own re-execution's in the fields the node compares, and deciding a block is
syncing it as long as the block decided is the one that was voted on.
-/

open Std

namespace AfroLink

namespace Sample

def genesis : Block :=
  { header := { chainId := chain, height := 0, time := 100, parent := 0, txRoot := 0, appHash := 0
                outcomeRoot := 0, validatorsHash := 0, nextValidatorsHash := 0 }
    transactions := [] }

/-- The node of the one validator, where account 1 holds money. -/
def solo : Node := Node.new chain (key 1) alone (funded 0) genesis (.inMemory none)

/-- The precommit of the one validator, as a certificate. -/
def soloCommit (block : Block) : Commit :=
  { height := 1, round := 0, blockId := block.header.id
    signatures := [solo.ownVote .precommit (some block.header.id)] }

end Sample

/-! ## Headers -/

theorem accepted_header_truthful_iff [Crypto] [StateRoot] (n : Node) (block : Block)
    (h : n.validateBlock block = true ∨ ∃ commit actions, (n.applySynced block commit).2 = .ok actions) :
    block.header = (n.buildBlock block.header.time block.transactions).header ↔
      block.header.outcomeRoot = (n.executed block).2.outcomeRoot ∧
      block.header.validatorsHash = n.validators.hash ∧ block.header.nextValidatorsHash = n.validators.hash := by
  have hvalid : n.validateBlock block = true := by
    rcases h with h | ⟨commit, actions, h⟩
    · exact h
    · exact (Node.applySynced_ok h).1
  obtain ⟨⟨hheight, hparent, hchain, htx⟩, -, happ⟩ := Node.validateBlock_iff.1 hvalid
  constructor
  · intro heq
    refine ⟨congrArg BlockHeader.outcomeRoot heq, ?_, ?_⟩
    · exact congrArg BlockHeader.validatorsHash heq
    · exact congrArg BlockHeader.nextValidatorsHash heq
  · rintro ⟨houtcome, hset, hnext⟩
    -- the other six fields are the ones both paths compare
    have htx' : block.header.txRoot = Block.txRoot block.transactions := by simpa [Block.txRootMatches] using htx
    calc block.header
      _ = { block.header with
            chainId := block.header.chainId, height := block.header.height, parent := block.header.parent
            txRoot := block.header.txRoot, appHash := block.header.appHash, outcomeRoot := block.header.outcomeRoot
            validatorsHash := block.header.validatorsHash
            nextValidatorsHash := block.header.nextValidatorsHash } := rfl
      _ = (n.buildBlock block.header.time block.transactions).header := by
        rw [hheight, hparent, hchain, htx', ← happ, houtcome, hset, hnext]
        rfl

namespace Sample

def bare : Block := solo.buildBlock 200 []

theorem accepted_header_truthful_iff_bare :
    solo.validateBlock bare = true ∧ bare.header = (solo.buildBlock bare.header.time bare.transactions).header := by
  have hvalid : solo.validateBlock bare = true := by decide +kernel
  refine ⟨hvalid, (accepted_header_truthful_iff solo bare (.inl hvalid)).2 ?_⟩
  decide +kernel

def forged : Block := { bare with header := { bare.header with outcomeRoot := 7 } }

theorem accepts_forged_outcomeRoot :
    solo.validateBlock forged = true ∧
    (solo.applySynced forged (soloCommit forged)).2 = .ok [.committed forged (soloCommit forged)] ∧
    forged.header.outcomeRoot ≠ (solo.buildBlock forged.header.time forged.transactions).header.outcomeRoot := by
  obtain ⟨hvalid, hcertified⟩ : solo.validateBlock forged = true ∧ solo.Certifies forged (soloCommit forged) := by
    decide +kernel
  refine ⟨hvalid, ?_, by decide +kernel⟩
  rw [Node.applySynced_of_certified hvalid hcertified]

end Sample

/-! ## Deciding and syncing -/

def Node.SameChain (n n' : Node) : Prop :=
  n.store = n'.store ∧ n.height = n'.height ∧ n.lastBlockId = n'.lastBlockId ∧ n.roundState = n'.roundState ∧
    n.committed = n'.committed ∧ n.lastReceipts = n'.lastReceipts ∧ n.mempool = n'.mempool

theorem deciding_agrees_with_syncing_iff [Crypto] [StateRoot] (n : Node) :
    (∀ (block : Block) (commit : Commit), n.validateBlock block = true → n.Certifies block commit →
      (∃ (round : Round) (signed : SignedProposal), n.proposals[round]? = some signed ∧
        signed.proposal.block = block) →
      n.quorumAt .precommit n.round = some (some block.header.id) →
      (n.checkPrecommitQuorum.1.SameChain (n.applySynced block commit).1 ↔ n.FirstStored block)) ∧
    ∀ block commit e, (n.applySynced block commit).2 = .error e → (n.applySynced block commit).1 = n := by
  refine ⟨?_, fun block commit e => Node.applySynced_error⟩
  rintro block commit hvalid hcertified ⟨round, stored, hround, rfl⟩ hquorum
  rw [Node.checkPrecommitQuorum_of_quorum hquorum, Node.applySynced_of_certified hvalid hcertified,
    Node.firstStored_iff]
  -- some proposal has the id, so `commit` does retire a block
  obtain ⟨signed, hsigned⟩ : ∃ signed, n.proposalFor stored.proposal.block.header.id = some signed := by
    refine Option.isSome_iff_exists.1 (List.find?_isSome.2 ⟨stored, TreeMap.mem_values.2 ⟨round, hround⟩, ?_⟩)
    simp [Proposal.blockId]
  rw [Node.commit_of_stored hsigned]
  constructor
  · rintro ⟨-, -, -, -, hcommitted, -⟩
    have hlast : n.committed ++ [signed.proposal.block] = n.committed ++ [stored.proposal.block] := hcommitted
    exact ⟨signed, hsigned, by simpa using hlast⟩
  · rintro ⟨first, hfirst, hblock⟩
    obtain rfl : signed = first := Option.some.inj (hsigned.symm.trans hfirst)
    rw [hblock]
    exact ⟨rfl, rfl, rfl, rfl, rfl, rfl, rfl⟩

namespace Sample

def proposalOf (block : Block) (round : Round) : SignedProposal :=
  Proposal.sign
    { chainId := chain, height := 1, round, block, validRound := none, proposer := addressOf 1 } (key 1)

theorem proposalOf_block (block : Block) (round : Round) : (proposalOf block round).proposal.block = block := rfl

/-- `block` is proposed in the node's round and has its precommit there. -/
def precommitted (n : Node) (block : Block) : Node :=
  let n := { n with proposals := n.proposals.insert n.round (proposalOf block n.round) }
  (n.fileVote (n.ownVote .precommit (some block.header.id))).1

theorem deciding_agrees_with_syncing_iff_bare :
    (precommitted solo bare).FirstStored bare ∧
    (precommitted solo bare).checkPrecommitQuorum.1.SameChain
      ((precommitted solo bare).applySynced bare (soloCommit bare)).1 := by
  have hfirst : (precommitted solo bare).FirstStored bare :=
    Node.firstStored_iff.2 ⟨proposalOf bare 0, by decide +kernel, proposalOf_block bare 0⟩
  refine ⟨hfirst, ((deciding_agrees_with_syncing_iff (precommitted solo bare)).1 bare (soloCommit bare)
    ?_ ?_ ⟨0, proposalOf bare 0, ?_, proposalOf_block bare 0⟩ ?_).2 hfirst⟩
  · decide +kernel
  · decide +kernel
  · decide +kernel
  · decide +kernel

/-- A payment from account 1, in a block built by the node. -/
def paid : Block := solo.buildBlock 200 [payment 0 100]

def hollow : Block := { paid with transactions := [] }

/-- The hollow block was proposed and voted down in round 0; the payment itself is proposed in round 1. -/
def torn : Node := precommitted (solo.handle (.proposal (proposalOf hollow 0))).1 paid

theorem decides_hollow_block :
    torn.validateBlock paid = true ∧ torn.Certifies paid (soloCommit paid) ∧
    torn.proposals[(1 : Round)]? = some (proposalOf paid 1) ∧
    torn.quorumAt .precommit torn.round = some (some paid.header.id) ∧
    torn.checkPrecommitQuorum.1.committed = [hollow] ∧
    (torn.applySynced paid (soloCommit paid)).1.committed = [paid] ∧
    hollow ≠ paid := by
  decide +kernel

end Sample

/-! ## Time -/

theorem block_times_increase [Crypto] [StateRoot] (chainId : ChainId) (key : SecretKey) (validators : ValidatorSet)
    (store : Store) (genesis : Block) (signing : SignRecord) {hist : List Action} {n : Node}
    (hrun : Trace (Node.StepsWhen (Node.InTime genesis.header.time))
      (Node.new chainId key validators store genesis signing) hist n) :
    (genesis.header.time :: n.committed.map (·.header.time)).Pairwise (· < ·) := by
  have hstart : (Node.new chainId key validators store genesis signing).Timely genesis.header.time := by
    refine ⟨List.pairwise_singleton _ _, fun round signed hs => ?_⟩
    simp [Node.new] at hs
  have hend : n.Timely genesis.header.time := by
    refine hrun.preserves ?_ hstart
    rintro m as m' hm ⟨i, hi, hstep⟩
    have hm' := Node.step_timely hi hm
    rwa [hstep] at hm'
  exact hend.sorted

namespace Sample

theorem block_times_increase_bare :
    (solo.step (.start 200)).1.committed.map (·.header.time) = [200] ∧
    (100 :: (solo.step (.start 200)).1.committed.map (·.header.time)).Pairwise (· < ·) := by
  have hin : solo.InTime genesis.header.time (.start 200) := by
    intro _ t ht
    obtain rfl : t = 100 := by simpa [solo, Node.new, genesis] using ht
    decide
  refine ⟨by decide +kernel, ?_⟩
  exact block_times_increase chain (key 1) alone (funded 0) genesis (.inMemory none)
    (.single (Node.StepsWhen.of_step hin))

/-- Genesis is at time 100; a block at time 50 is proposed, voted for and appended. -/
theorem appends_block_before_genesis :
    genesis.header.time = 100 ∧ (solo.step (.start 50)).1.committed.map (·.header.time) = [50] := by
  decide +kernel

end Sample

end AfroLink
