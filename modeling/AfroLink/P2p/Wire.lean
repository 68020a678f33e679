import AfroLink.Node.Proposal
import AfroLink.P2p.Peer

/-!
# What peers say to each other
-/

namespace AfroLink

/-- Outstanding block requests a node keeps across all its peers. -/
def MAX_BLOCKS_IN_FLIGHT : ℕ := 8
/-- Blocks held aside because they arrived before their parent did. -/
def MAX_STAGED_BLOCKS : ℕ := 16
/-- Ticks a block request may go unanswered before the height is asked elsewhere. -/
def REQUEST_TIMEOUT_TICKS : ℕ := 8

def FRAME_HEADROOM : ℕ := 1024 * 1024
def MAX_FRAME_LEN : ℕ := MAX_BLOCK_BYTES + FRAME_HEADROOM
def MAX_ADDRS : ℕ := 64

/-- A finalised block with the proof that it is final. -/
structure SyncBlock where
  block : Block
  commit : Commit
deriving DecidableEq

def SyncBlock.height (s : SyncBlock) : Height := s.block.header.height

inductive PeerMessage where
  | proposal (p : SignedProposal)
  | vote (v : SignedVote)
  | transaction (t : Transaction)
  | getAddrs
  | addrs (addrs : List PeerAddr)
  | ping (nonce : U64)
  | pong (nonce : U64)
  /-- The highest height the peer says it has committed. -/
  | status (height : Height)
  | getBlock (height : Height)
  | block (sync : SyncBlock)
  | noBlock (height : Height)
deriving DecidableEq

/-- The identifier deduplication is keyed on. Only gossip has one. -/
def PeerMessage.gossipId [Crypto] : PeerMessage → Option Hash32
  | proposal p => some (hash .p2pTranscript (encode p))
  | vote v => some (hash .p2pTranscript (encode v))
  | transaction t => some (hash .p2pTranscript (encode t))
  | getAddrs | addrs _ | ping _ | pong _ | status _ | getBlock _ | block _ | noBlock _ => none

end AfroLink
