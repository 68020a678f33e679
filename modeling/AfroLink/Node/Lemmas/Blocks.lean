import AfroLink.Base.TreeMap
import AfroLink.Node.Node

/-!
# Accepting and retiring blocks

A height is retired in two ways, by deciding it and by syncing it.
-/

open Std

namespace AfroLink

variable [Crypto] [StateRoot]

namespace Node

def executed (n : Node) (block : Block) : Store × BlockOutcome :=
  n.executor.executeBlock n.store ⟨n.height, block.header.time⟩ block.transactions

/-- The node with the block executed and its height behind it. -/
def retired (n : Node) (block : Block) (commit : Commit) : Node :=
  (advancePast
    { n with store := (n.executed block).1, lastReceipts := (n.executed block).2.outcomes.map (·.receipt) }
    block commit).1

variable {block : Block} {n : Node} {commit : Commit} {signed : SignedProposal} {blockId : Hash32}

theorem validateBlock_iff : n.validateBlock block = true ↔
      (block.header.height = n.height ∧ block.header.parent = n.lastBlockId ∧ block.header.chainId = n.chainId ∧
        block.txRootMatches = true) ∧
      block.withinSizeLimits = true ∧ (n.executed block).2.appHash = block.header.appHash := by
  unfold validateBlock
  split_ifs with hfields hsize
  · simp only [false_iff]
    rintro ⟨⟨hh, hp, hc, ht⟩, -⟩
    simp [hh, hp, hc, ht] at hfields
  · simp only [Bool.not_eq_true'] at hsize
    simp [hsize]
  · simp only [not_or, not_not, Bool.not_eq_true', Bool.not_eq_false] at hfields hsize
    simp [hfields, hsize, executed]

/-- The certificate is about this block and enough of the set has signed it. -/
def Certifies (n : Node) (block : Block) (commit : Commit) : Prop :=
  commit.blockId = block.header.id ∧ commit.height = block.header.height ∧
    commit.verify n.chainId n.validators = .ok ()

instance (n : Node) (block : Block) (commit : Commit) : Decidable (n.Certifies block commit) := by
  unfold Certifies
  infer_instance

theorem applySynced_of_certified (hb : n.validateBlock block = true) (hc : n.Certifies block commit) :
    n.applySynced block commit = (n.retired block commit, .ok [.committed block commit]) := by
  obtain ⟨⟨hheight, hparent, hchain, htx⟩, hsize, happ⟩ := validateBlock_iff.1 hb
  obtain ⟨hid, hch, hverify⟩ := hc
  unfold executed at happ
  unfold applySynced
  simp only [hheight] at hch ⊢
  simp [hparent, hchain, htx, hsize, hid, hch, hverify, happ, retired, executed, advancePast]

theorem applySynced_cases (n : Node) (block : Block) (commit : Commit) :
    (∃ e, n.applySynced block commit = (n, .error e)) ∨
    (n.validateBlock block = true ∧ n.Certifies block commit) := by
  unfold applySynced
  split
  · exact .inl ⟨_, rfl⟩
  · rename_i hchain
    split
    · exact .inl ⟨_, rfl⟩
    · rename_i hheight
      split
      · exact .inl ⟨_, rfl⟩
      · rename_i hparent
        split_ifs with hcommit htx hsize
        · exact .inl ⟨_, rfl⟩
        · exact .inl ⟨_, rfl⟩
        · exact .inl ⟨_, rfl⟩
        · simp only [not_or, not_not, Bool.not_eq_true', Bool.not_eq_false] at hchain hheight hparent hcommit htx hsize
          cases hverify : commit.verify n.chainId n.validators with
          | error e => exact .inl ⟨_, rfl⟩
          | ok u =>
            simp only
            split
            · exact .inl ⟨_, rfl⟩
            · rename_i happ
              rw [hheight, not_not] at happ
              exact .inr ⟨validateBlock_iff.2 ⟨⟨hheight, hparent, hchain, htx⟩, hsize, happ⟩, hcommit.1, hcommit.2,
                hverify⟩

theorem applySynced_error {e : SyncError}
    (h : (n.applySynced block commit).2 = .error e) : (n.applySynced block commit).1 = n := by
  rcases applySynced_cases n block commit with ⟨_, h'⟩ | ⟨hb, hc⟩
  · rw [h']
  · rw [applySynced_of_certified hb hc] at h
    cases h

theorem applySynced_ok {actions : List Action}
    (h : (n.applySynced block commit).2 = .ok actions) : n.validateBlock block = true ∧ n.Certifies block commit := by
  rcases applySynced_cases n block commit with ⟨_, h'⟩ | hacc
  · rw [h'] at h
    cases h
  · exact hacc

/-! ## Deciding -/

/-- Some round has the block, and no earlier one has a proposal with its id. -/
def FirstStored (n : Node) (block : Block) : Prop :=
  ∃ (round : Round) (signed : SignedProposal), n.proposals[round]? = some signed ∧ signed.proposal.block = block ∧
    ∀ (earlier : Round) (other : SignedProposal), earlier < round → n.proposals[earlier]? = some other →
      other.proposal.blockId ≠ block.header.id

omit [StateRoot] in
theorem proposalFor_eq_some : n.proposalFor blockId = some signed ↔
      ∃ round : Round, n.proposals[round]? = some signed ∧ signed.proposal.blockId = blockId ∧
        ∀ (earlier : Round) (other : SignedProposal), earlier < round → n.proposals[earlier]? = some other →
          other.proposal.blockId ≠ blockId := by
  unfold proposalFor
  rw [TreeMap.find?_values_eq_some]
  simp only [beq_iff_eq, beq_eq_false_iff_ne, compare_lt_iff_lt]
  constructor
  · rintro ⟨round, hround, hid, hfirst⟩
    exact ⟨round, hround, hid, fun earlier other hlt => hfirst earlier hlt other⟩
  · rintro ⟨round, hround, hid, hfirst⟩
    exact ⟨round, hround, hid, fun earlier hlt other => hfirst earlier other hlt⟩

omit [StateRoot] in
/-- A block is decided with the first proposal of its id, whatever transactions that one carries. -/
theorem firstStored_iff :
    n.FirstStored block ↔ ∃ signed, n.proposalFor block.header.id = some signed ∧ signed.proposal.block = block := by
  constructor
  · rintro ⟨round, signed, hround, rfl, hfirst⟩
    exact ⟨signed, proposalFor_eq_some.2 ⟨round, hround, rfl, hfirst⟩, rfl⟩
  · rintro ⟨signed, hfor, hblock⟩
    obtain ⟨round, hround, -, hfirst⟩ := proposalFor_eq_some.1 hfor
    exact ⟨round, signed, hround, hblock, hfirst⟩

/-- The certificate a node makes of the precommits of its round. -/
def certificate (n : Node) (blockId : Hash32) : Commit :=
  { height := n.height, round := n.round, blockId
    signatures := match n.precommits[n.round]? with
      | some set => set.votesFor (some blockId)
      | none => [] }

theorem commit_of_stored (h : n.proposalFor blockId = some signed) :
    n.commit blockId = (n.retired signed.proposal.block (n.certificate blockId),
      [.committed signed.proposal.block (n.certificate blockId)]) := by
  simp only [commit, h]
  rfl

theorem commit_of_missing (h : n.proposalFor blockId = none) : n.commit blockId = (n, []) := by
  simp [commit, h]

theorem checkPrecommitQuorum_of_quorum
    (h : n.quorumAt .precommit n.round = some (some blockId)) : n.checkPrecommitQuorum = n.commit blockId := by
  simp [checkPrecommitQuorum, h, RoundState.decideCommit]

end Node

end AfroLink
