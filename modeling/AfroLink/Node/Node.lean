import AfroLink.Node.Proposal

/-!
# The node

One validator: its chain state, the round it is deciding, and what each event makes it do. Every handler takes
the node and gives back the node after it with the actions to perform, in order. The address is the key's own and
the executor holds the chain id alone, so both are read off rather than stored.
-/

open Std

namespace AfroLink

structure Node where
  chainId : ChainId
  key : SecretKey
  validators : ValidatorSet
  store : Store
  height : Height
  lastBlockId : Hash32
  roundState : RoundState
  proposals : TreeMap Round SignedProposal
  prevotes : TreeMap Round VoteSet
  precommits : TreeMap Round VoteSet
  waits : Finset (Round × Step)
  signing : SignRecord
  reported : Finset Address
  refusals : List SignRefusal
  begun : Option (Height × Round)
  mempool : Mempool
  committed : List Block
  lastCommit : Option Commit
  lastReceipts : List TxReceipt
  decided : Bool

def VoteType.step : VoteType → Step
  | prevote => .prevote
  | precommit => .precommit

namespace Node

def executor (n : Node) : Executor := ⟨n.chainId⟩

def round (n : Node) : Round := n.roundState.round

def voteSets (n : Node) : VoteType → TreeMap Round VoteSet
  | .prevote => n.prevotes
  | .precommit => n.precommits

def withVoteSets (n : Node) (sets : TreeMap Round VoteSet) : VoteType → Node
  | .prevote => { n with prevotes := sets }
  | .precommit => { n with precommits := sets }

def voteSetAt (n : Node) (voteType : VoteType) (round : Round) : VoteSet :=
  (n.voteSets voteType).getD round (VoteSet.new n.chainId n.height round voteType)

/-- The value with a quorum among the votes of one kind in the current round. -/
def quorumAt (n : Node) (voteType : VoteType) (round : Round) : Option (Option Hash32) :=
  (n.voteSets voteType)[round]?.bind (·.quorumValue n.validators)

variable [Crypto]

def address (n : Node) : Address := Address.fromPublicKey n.key.publicKey

def new (chainId : ChainId) (key : SecretKey) (validators : ValidatorSet) (store : Store) (genesis : Block)
    (signing : SignRecord) : Node where
  chainId := chainId
  key := key
  validators := validators
  store := store
  height := genesis.header.height.next
  lastBlockId := genesis.header.id
  roundState := RoundState.new genesis.header.height.next
  proposals := ∅
  prevotes := ∅
  precommits := ∅
  waits := ∅
  signing := signing
  reported := ∅
  refusals := []
  begun := none
  mempool := Mempool.new {}
  committed := []
  lastCommit := none
  lastReceipts := []
  decided := false

/-! ## Transactions -/

def submit (n : Node) (t : Transaction) : Except Rejected (Node × Transaction) :=
  let sender := Exec.readOrFresh n.store t.body.sender
  let sponsor := t.body.fee.payer.map (Exec.readOrFresh n.store)
  match n.mempool.insert t n.chainId n.height sender sponsor with
  | .error e => .error e
  | .ok (mempool, _) => .ok ({ n with mempool }, t)

/-- Accepted transactions are relayed; a refused one is dropped in silence. -/
def submitAndRelay (n : Node) (t : Transaction) : Node × List Action :=
  match n.submit t with
  | .ok (n, t) => (n, [.broadcastTransaction t])
  | .error _ => (n, [])

/-! ## Blocks -/

def isProposer (n : Node) (round : Round) : Bool :=
  (n.validators.proposer n.height round).any (·.address == n.address)

variable [StateRoot]

def buildBlock (n : Node) (time : Timestamp) (transactions : List Transaction) : Block :=
  (n.executor.buildBlock n.store n.height time n.lastBlockId transactions
    (ValidatorSets.unchanged n.validators)).2.1

def validateBlock (n : Node) (block : Block) : Bool :=
  if block.header.height ≠ n.height ∨ block.header.parent ≠ n.lastBlockId ∨ block.header.chainId ≠ n.chainId ∨
      !block.txRootMatches then false
  else if !block.withinSizeLimits then false
  else
    let (_, outcome) := n.executor.executeBlock n.store ⟨n.height, block.header.time⟩ block.transactions
    outcome.appHash == block.header.appHash

/-- Retire the height: everything that belonged to deciding it is dropped. -/
def advancePast (n : Node) (block : Block) (commit : Commit) : Node × List Action :=
  ({ n with
      mempool := (n.mempool.removeCommitted block.transactions).evictExpired n.height.next
      committed := n.committed ++ [block]
      lastBlockId := block.header.id
      height := n.height.next
      roundState := RoundState.new n.height.next
      proposals := ∅
      prevotes := ∅
      precommits := ∅
      waits := ∅
      reported := ∅
      decided := false
      lastCommit := some commit },
    [.committed block commit])

/-- The first stored proposal, in round order, whose header has the id. -/
def proposalFor (n : Node) (blockId : Hash32) : Option SignedProposal :=
  n.proposals.values.find? fun p => p.proposal.blockId == blockId

def commit (n : Node) (blockId : Hash32) : Node × List Action :=
  match n.proposalFor blockId with
  | none => (n, [])
  | some signed =>
    let block := signed.proposal.block
    let signatures := match n.precommits[n.round]? with
      | some set => set.votesFor (some blockId)
      | none => []
    let certificate : Commit := { height := n.height, round := n.round, blockId, signatures }
    let (store, outcome) :=
      n.executor.executeBlock n.store ⟨n.height, block.header.time⟩ block.transactions
    advancePast { n with store, lastReceipts := outcome.outcomes.map (·.receipt), decided := true }
      block certificate

def applySynced (n : Node) (block : Block) (commit : Commit) : Node × Except SyncError (List Action) :=
  if block.header.chainId ≠ n.chainId then (n, .error (.wrongChain n.chainId block.header.chainId))
  else if block.header.height ≠ n.height then (n, .error (.wrongHeight n.height block.header.height))
  else if block.header.parent ≠ n.lastBlockId then (n, .error .wrongParent)
  else if commit.blockId ≠ block.header.id ∨ commit.height ≠ block.header.height then
    (n, .error .commitIsForAnotherBlock)
  else if !block.txRootMatches then (n, .error .txRootMismatch)
  else if !block.withinSizeLimits then (n, .error .oversized)
  else match commit.verify n.chainId n.validators with
    | .error e => (n, .error (.badCommit e))
    | .ok _ =>
      let (trial, outcome) :=
        n.executor.executeBlock n.store ⟨block.header.height, block.header.time⟩ block.transactions
      if outcome.appHash ≠ block.header.appHash then (n, .error .appHashMismatch)
      else
        let (n, actions) :=
          advancePast { n with store := trial, lastReceipts := outcome.outcomes.map (·.receipt) } block commit
        (n, .ok actions)

/-! ## Votes -/

def ownVote (n : Node) (voteType : VoteType) (blockId : Option Hash32) : SignedVote :=
  Vote.sign
    { chainId := n.chainId, height := n.height, round := n.round, voteType, blockId, validator := n.address } n.key

/-- Evidence goes into the node's own mempool once a height for each offender. -/
def reportEquivocation (n : Node) (evidence : Equivocation) : Node × List Action :=
  if evidence.validator ∈ n.reported then (n, [])
  else
    let n := { n with reported := insert evidence.validator n.reported }
    let filed : U64 := Fin.ofNat (2 ^ 64) (n.reported.card - 1)
    let body : TxBody :=
      { chainId := n.chainId, sender := n.address
        nonce := (Exec.readOrFresh n.store n.address).nonce.saturatingAdd filed
        validUntil := n.height.saturatingAdd EVIDENCE_VALIDITY_BLOCKS
        fee := { amount := EVIDENCE_FEE, denom := Denom.native, payer := none }
        messages := [.reportEquivocation evidence], memo := "" }
    n.submitAndRelay (body.sign n.key)

/-- Ask for a timeout once a round and step, when there is something to wait for. -/
def arm (n : Node) (round : Round) (step : Step) (when_ : Bool) : Node × List Action :=
  if (round, step) ∈ n.waits ∨ !when_ then (n, [])
  else ({ n with waits := insert (round, step) n.waits }, [.scheduleTimeout step round])

/-- File the vote in its round's set, which is created if this is the first to name the round. -/
def fileVote (n : Node) (signed : SignedVote) : Node × Option VoteOutcome :=
  let vote := signed.vote
  let set := n.voteSetAt vote.voteType vote.round
  match set.add n.validators signed with
  | .error _ => (n.withVoteSets ((n.voteSets vote.voteType).insert vote.round set) vote.voteType, none)
  | .ok (set, outcome) =>
    (n.withVoteSets ((n.voteSets vote.voteType).insert vote.round set) vote.voteType, some outcome)

/-- What a filed vote leads to: a report of the equivocation it completes, and the quorum check of its round. -/
def followUp (check : Node → Node × List Action) (n : Node) (round : Round) : Option VoteOutcome → Node × List Action
  | none => (n, [])
  | some outcome =>
    let (n, actions) := match outcome with
      | .equivocated evidence => n.reportEquivocation evidence
      | _ => (n, [])
    -- a vote of another round is filed and no more: the relay of a report goes unsaid with it
    if round ≠ n.round then (n, [])
    else
      let (n, more) := check n
      (n, actions ++ more)

def onVoteThen (check : Node → Node × List Action) (n : Node) (signed : SignedVote) : Node × List Action :=
  if n.decided ∨ signed.vote.height ≠ n.height then (n, [])
  else
    let (n, outcome) := n.fileVote signed
    n.followUp check signed.vote.round outcome

def emitVoteThen (onVote : Node → SignedVote → Node × List Action) (n : Node) (voteType : VoteType)
    (blockId : Option Hash32) : Node × List Action :=
  match n.signing.claim ⟨n.height, n.round, voteType.step⟩ with
  | (signing, .error refused) => ({ n with signing, refusals := n.refusals ++ [refused] }, [])
  | (signing, .ok _) =>
    let signed := n.ownVote voteType blockId
    let (n, actions) := onVote { n with signing } signed
    (n, .broadcastVote signed :: actions)

def checkPrecommitQuorum (n : Node) : Node × List Action :=
  match n.quorumAt .precommit n.round with
  | none => n.arm n.round .precommit (n.precommits[n.round]?.any (·.hasQuorumAny n.validators))
  | some quorum =>
    match n.roundState.decideCommit (some quorum) with
    | (roundState, .commit blockId) => commit { n with roundState } blockId
    | (roundState, .nextRound next) => ({ n with roundState }, [.startRound next])
    | (roundState, _) => ({ n with roundState }, [])

-- A prevote can lead to a precommit and a precommit to a commit, never back, so the mutual recursion of
-- `on_vote` and `emit_vote` unrolls: precommits first, then prevotes.
def onPrecommit : Node → SignedVote → Node × List Action := onVoteThen checkPrecommitQuorum

def checkPrevoteQuorum (n : Node) : Node × List Action :=
  if n.roundState.step = .precommit then (n, [])
  else match n.quorumAt .prevote n.round with
    | none => n.arm n.round .prevote (n.prevotes[n.round]?.any (·.hasQuorumAny n.validators))
    | some quorum =>
      match n.roundState.decidePrecommit (some quorum) with
      | (roundState, .precommit value) => emitVoteThen onPrecommit { n with roundState } .precommit value
      | (roundState, _) => ({ n with roundState }, [])

def onPrevote : Node → SignedVote → Node × List Action := onVoteThen checkPrevoteQuorum

def onVote (n : Node) (signed : SignedVote) : Node × List Action :=
  match signed.vote.voteType with
  | .prevote => onPrevote n signed
  | .precommit => onPrecommit n signed

def emitVote (n : Node) (voteType : VoteType) (blockId : Option Hash32) : Node × List Action :=
  emitVoteThen onVote n voteType blockId

/-! ## Proposals, timeouts and events -/

/-- What `on_proposal` asks of a proposal before it stores it. The signature is not among it. -/
def acceptsProposal (n : Node) (p : Proposal) : Bool :=
  !n.decided && p.height == n.height && p.round == n.round &&
    (n.validators.proposer n.height p.round).any (·.address == p.proposer) && p.chainId == n.chainId

def onProposal (n : Node) (signed : SignedProposal) : Node × List Action :=
  let p := signed.proposal
  if !n.acceptsProposal p then (n, [])
  else
    let valid := n.validateBlock p.block
    let n := { n with proposals := n.proposals.insert p.round signed }
    match n.roundState.decidePrevote (some p.blockId) p.validRound valid with
    | .prevote value => emitVote { n with roundState := { n.roundState with step := .prevote } } .prevote value
    | _ => (n, [])

def onTimeout (n : Node) (step : Step) : Node × List Action :=
  match step, n.roundState.step with
  | .propose, .propose => emitVote { n with roundState := { n.roundState with step := .prevote } } .prevote none
  | .prevote, .prevote => emitVote { n with roundState := { n.roundState with step := .precommit } } .precommit none
  | .precommit, .precommit =>
    ({ n with roundState := n.roundState.advanceTo n.round.next }, [.startRound n.round.next])
  | _, _ => (n, [])

def blockToPropose (n : Node) (time : Timestamp) : Block × Option Round :=
  let transactions := n.mempool.select fun address => (Exec.readOrFresh n.store address).nonce
  match n.roundState.validValue, n.proposals.values.getLast? with
  | some _, some prev => (prev.proposal.block, n.roundState.validRound)
  | _, _ => (n.buildBlock time transactions, none)

def ownProposal (n : Node) (time : Timestamp) : SignedProposal :=
  let (block, validRound) := n.blockToPropose time
  Proposal.sign
    { chainId := n.chainId, height := n.height, round := n.round, block, validRound, proposer := n.address } n.key

def startRound (n : Node) (time : Timestamp) : Node × List Action :=
  let round := n.round
  if n.begun = some (n.height, round) then (n, [])
  else
    let n := { n with begun := some (n.height, round) }
    if n.isProposer round then
      match n.signing.claim ⟨n.height, round, .propose⟩ with
      | (signing, .error refused) =>
        ({ n with signing, refusals := n.refusals ++ [refused] }, [.scheduleTimeout .propose round])
      | (signing, .ok _) =>
        let n := { n with signing }
        let signed := n.ownProposal time
        let (n, actions) := n.onProposal signed
        (n, .broadcastProposal signed :: actions)
    else (n, [.scheduleTimeout .propose round])

def handle (n : Node) : Event → Node × List Action
  | .proposal p => n.onProposal p
  | .vote v => n.onVote v
  | .transaction t => n.submitAndRelay t
  | .timeout step => n.onTimeout step

/-- What can be done to a node from outside. -/
inductive Input where
  | event (e : Event)
  | start (time : Timestamp)
  | sync (block : Block) (commit : Commit)

def step (n : Node) : Input → Node × List Action
  | .event e => n.handle e
  | .start time => n.startRound time
  | .sync block commit =>
    match n.applySynced block commit with
    | (n, .ok actions) => (n, actions)
    | (n, .error _) => (n, [])

def run (n : Node) : List Input → Node × List Action
  | [] => (n, [])
  | i :: rest =>
    let (n, actions) := n.step i
    let (n, more) := n.run rest
    (n, actions ++ more)

end Node

end AfroLink
