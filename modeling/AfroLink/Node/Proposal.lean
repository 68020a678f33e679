import AfroLink.Executor.Executor
import AfroLink.Node.Mempool
import AfroLink.Node.Signing

/-!
# Proposals, events and actions

What a node signs when it proposes, what reaches it, and what it asks of the outside.
-/

namespace AfroLink

structure Proposal where
  chainId : ChainId
  height : Height
  round : Round
  block : Block
  /-- The round the proposer says it saw a quorum for this block in. -/
  validRound : Option Round
  proposer : Address
deriving DecidableEq

structure SignedProposal where
  proposal : Proposal
  signature : Signature
deriving DecidableEq

instance : Encode Block := ⟨fun b => encode b.header ++ encode b.transactions⟩

instance : Encode Proposal := ⟨fun p => encode p.chainId ++ encode p.height ++ encode p.round ++
  encode p.block ++ encode p.validRound ++ encode p.proposer⟩

instance : Encode SignedProposal := ⟨fun s => encode s.proposal ++ encode s.signature⟩

section

variable [Crypto]

def Proposal.blockId (p : Proposal) : Hash32 := p.block.header.id

def Proposal.sign (p : Proposal) (key : SecretKey) : SignedProposal :=
  { proposal := p, signature := key.sign .blockId (encode p) }

def SignedProposal.verifies (s : SignedProposal) (pk : PublicKey) : Bool :=
  pk.verify .blockId (encode s.proposal) s.signature

end

inductive Event where
  | proposal (p : SignedProposal)
  | vote (v : SignedVote)
  | transaction (t : Transaction)
  | timeout (step : Step)
deriving DecidableEq

inductive Action where
  | broadcastProposal (p : SignedProposal)
  | broadcastVote (v : SignedVote)
  | broadcastTransaction (t : Transaction)
  | committed (block : Block) (commit : Commit)
  | scheduleTimeout (step : Step) (round : Round)
  | startRound (round : Round)
deriving DecidableEq

inductive SyncError where
  | wrongChain (expected got : ChainId)
  | wrongHeight (expected got : Height)
  | wrongParent
  | commitIsForAnotherBlock
  | txRootMismatch
  | oversized
  | badCommit (e : CommitError)
  | appHashMismatch
deriving DecidableEq

def EVIDENCE_FEE : Amount := 1000
def EVIDENCE_VALIDITY_BLOCKS : U64 := 10000

end AfroLink
