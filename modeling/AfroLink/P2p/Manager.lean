import AfroLink.Base.Clock
import AfroLink.P2p.AddrBook
import AfroLink.P2p.Wire

/-!
# The peer manager

Whom to connect to, what to believe and what to pass on: a function of the state and an event, with no sockets and no
clock of its own.
-/

open Std (TreeMap)

namespace AfroLink

structure Limits where
  maxOutbound : ℕ := 8
  maxInbound : ℕ := 40
  seenCapacity : ℕ := 8192
  messagesPerSecond : U64 := 1024
  bytesPerSecond : U64 := 5242880
  /-- How much unused allowance a quiet peer may bank. -/
  burst : Duration := .fromSecs 2

def BAN_DURATION : Duration := .fromSecs 3600

def ANCHOR_COUNT : ℕ := 2

/-! ## Rate limits -/

/-- A token bucket, refilled by the time it is told has passed. -/
structure Bucket where
  tokens : U64
  capacity : U64
  perSecond : U64
deriving DecidableEq

namespace Bucket

def perMillis (perSecond millis : U64) : U64 :=
  ⟨(perSecond.saturatingMul millis).val / 1000, (Nat.div_le_self _ _).trans_lt (Fin.isLt _)⟩

/-- Sustains `perSecond` and banks `burst` of it, but never less than `floor`. -/
def new (perSecond : U64) (burst : Duration) (floor : U64) : Bucket :=
  let capacity := max (max (perMillis perSecond burst.millis) floor) 1
  ⟨capacity, capacity, perSecond⟩

def refill (b : Bucket) (elapsed : Duration) : Bucket :=
  { b with tokens := min (b.tokens.saturatingAdd (perMillis b.perSecond elapsed.millis)) b.capacity }

def take (b : Bucket) (n : U64) : Bucket × Bool :=
  match b.tokens.checkedSub n with
  | some left => ({ b with tokens := left }, true)
  | none => (b, false)

end Bucket

inductive Refusal where
  | noRoom | banned | duplicate | selfConnection | groupInUse
deriving DecidableEq

inductive Directive where
  | deliver (event : Event)
  | send (peer : PeerId) (message : PeerMessage)
  /-- To every peer except the one named. -/
  | relay (message : PeerMessage) (source : PeerId)
  | broadcast (message : PeerMessage)
  /-- Read this height from the durable store and send it to this peer. -/
  | serveBlock (peer : PeerId) (height : Height)
  /-- Apply this block, which the peer supplied. -/
  | applyBlock (peer : PeerId) (sync : SyncBlock)
  | disconnect (peer : PeerId) (why : String)
deriving DecidableEq

structure Connected where
  addr : PeerAddr
  outbound : Bool
  reputation : Reputation
  messages : Bucket
  bytes : Bucket
  /-- Whether it was asked for addresses and has not answered. -/
  awaitingAddrs : Bool
  /-- The height it claims to hold. -/
  tip : Option Height
  /-- The height it was asked for and has not answered on. -/
  awaitingBlock : Option Height
  /-- Ticks since that request went out. -/
  requestAge : U32
  /-- A height it was asked for and is no longer waited on. -/
  abandoned : Option Height
  /-- The uptime at which it was admitted. -/
  since : Duration
  /-- Whether it has ever answered a block request. -/
  served : Bool
deriving DecidableEq

def Connected.refill (elapsed : Duration) (p : Connected) : Connected :=
  { p with messages := p.messages.refill elapsed, bytes := p.bytes.refill elapsed }

/-- A request that has gone unanswered long enough is given up, not punished. -/
def Connected.age (p : Connected) : Connected :=
  if p.awaitingBlock.isSome then
    let requestAge := p.requestAge.saturatingAdd 1
    if REQUEST_TIMEOUT_TICKS ≤ requestAge.val then
      { p with abandoned := p.awaitingBlock, awaitingBlock := none, requestAge := 0 }
    else { p with requestAge }
  else p

/-- Recently seen gossip ids, oldest first. -/
structure Seen where
  order : List Hash32
  capacity : ℕ

namespace Seen

def new (capacity : ℕ) : Seen := ⟨[], max capacity 1⟩

def insert (s : Seen) (id : Hash32) : Seen × Bool :=
  if id ∈ s.order then (s, false)
  else
    let order := s.order ++ [id]
    ({ s with order := order.drop (order.length - s.capacity) }, true)

end Seen

/-- The peer set, the address book, and the policy over both. -/
structure Manager where
  ours : PeerId
  book : AddrBook
  peers : TreeMap PeerId Connected
  /-- Banned peers, and the uptime their ban expires at. -/
  banned : TreeMap PeerId Duration
  /-- Addresses to dial before the book's. -/
  anchors : List PeerAddr
  seen : Seen
  limits : Limits
  cursor : U64
  /-- Tick time since this manager was made. -/
  uptime : Duration
  /-- The next height this node needs. -/
  height : Height
  /-- Blocks that arrived before their parent did. -/
  staged : TreeMap Height (PeerId × SyncBlock)

namespace Manager

def new (ours : PeerId) (book : AddrBook) (limits : Limits) : Manager :=
  { ours, book, peers := ∅, banned := ∅, anchors := [], seen := .new limits.seenCapacity, limits, cursor := 0,
    uptime := 0, height := 0, staged := ∅ }

/-- Where the node actually is. Staged blocks below it are dropped. -/
def setHeight (m : Manager) (height : Height) : Manager :=
  { m with height, staged := m.staged.filter fun staged _ => height ≤ staged }

def committedTip (m : Manager) : Height := m.height.saturatingSub 1

def bestPeerHeight (m : Manager) : Option Height := (m.peers.values.filterMap (·.tip)).max?

def isBehind (m : Manager) : Bool := m.bestPeerHeight.any (m.height ≤ ·)

def outboundCount (m : Manager) : ℕ := m.peers.values.countP (·.outbound)

def inboundCount (m : Manager) : ℕ := m.peers.values.countP (!·.outbound)

def isBanned (m : Manager) (peer : PeerId) : Bool := m.banned[peer]?.any (m.uptime < ·)

def seedAnchors (m : Manager) (addrs : List PeerAddr) : Manager :=
  { m with anchors := m.anchors ++ addrs.take ANCHOR_COUNT }

def outboundGroups (m : Manager) : List AddrGroup := (m.peers.values.filter (·.outbound)).map (·.addr.group)

/-! ## Connections -/

/-- The anchors left, and the first of them that can be dialled. Each is consumed whether or not it can. -/
def nextAnchor (m : Manager) (avoid : List AddrGroup) : List PeerAddr → List PeerAddr × Option PeerAddr
  | [] => ([], none)
  | anchor :: rest =>
    if anchor.id ≠ m.ours ∧ !m.isBanned anchor.id ∧ !m.peers.contains anchor.id ∧ anchor.group ∉ avoid then
      (rest, some anchor)
    else m.nextAnchor avoid rest

def wantsOutbound (m : Manager) : Manager × Option PeerAddr :=
  if m.limits.maxOutbound ≤ m.outboundCount then (m, none)
  else
    -- groups this node is connected into, and groups it is reached from
    let avoid := m.outboundGroups ++ m.peers.values.map (·.addr.group)
    match m.nextAnchor avoid m.anchors with
    | (anchors, some anchor) => ({ m with anchors }, some anchor)
    | (anchors, none) =>
      let m := { m with anchors, cursor := m.cursor + 1 }
      match m.book.select avoid m.cursor with
      | none => (m, none)
      | some candidate =>
        (m, if candidate.id ≠ m.ours ∧ !m.isBanned candidate.id then some candidate else none)

def seats (m : Manager) (g : AddrGroup) : ℕ := m.peers.values.countP fun p => !p.outbound && p.addr.group = g

/-- The order of eviction: one that has not served a block before one that has, then the younger. -/
def evictsBefore (a b : PeerId × Connected) : Bool :=
  toLex (!a.2.served, toLex (a.2.since, a.1.key.bytes)) ≤ toLex (!b.2.served, toLex (b.2.since, b.1.key.bytes))

/-- Which inbound peer to remove to make room: one of the group with the most seats, if that has two. -/
def evictionCandidate (m : Manager) : Option PeerId := do
  let inbound := m.peers.toList.filter (!·.2.outbound)
  let largest ← (inbound.map fun e => m.seats e.2.addr.group).max?
  if largest < 2 then none
  else
    let victim ← (inbound.filter fun e => m.seats e.2.addr.group = largest).lastMaxBy evictsBefore
    some victim.1

def admitted (m : Manager) (addr : PeerAddr) (outbound : Bool) : Connected :=
  { addr, outbound, reputation := .new
    messages := .new m.limits.messagesPerSecond m.limits.burst 1
    -- one maximum-size frame, always
    bytes := .new m.limits.bytesPerSecond m.limits.burst (Fin.ofNat _ MAX_FRAME_LEN)
    awaitingAddrs := false, tip := none, awaitingBlock := none, requestAge := 0, abandoned := none
    since := m.uptime, served := false }

section

variable [Crypto]

def admitPeer (m : Manager) (addr : PeerAddr) (outbound : Bool) : Except Refusal (Manager × List Directive) :=
  if addr.id = m.ours then .error .selfConnection
  else if m.isBanned addr.id then .error .banned
  else if m.peers.contains addr.id then .error .duplicate
  else if outbound then
    if m.limits.maxOutbound ≤ m.outboundCount then .error .noRoom
    else if addr.group ∈ m.outboundGroups then .error .groupInUse
    else
      -- only a peer this node dialled enters the address book
      let book := ((m.book.add addr addr.group).1).markGood addr.id
      .ok ({ m with book, peers := m.peers.insert addr.id (m.admitted addr true) }, [])
  else if m.limits.maxInbound ≤ m.inboundCount then
    match m.evictionCandidate with
    | none => .error .noRoom
    | some victim =>
      .ok ({ m with peers := (m.peers.erase victim).insert addr.id (m.admitted addr false) },
        [.disconnect victim "evicted to make room"])
  else .ok ({ m with peers := m.peers.insert addr.id (m.admitted addr false) }, [])

def advertised (m : Manager) (peer : PeerId) (claimed : SocketAddr) (source : AddrGroup) : Manager :=
  if peer = m.ours ∨ m.isBanned peer then m else { m with book := (m.book.add ⟨peer, claimed⟩ source).1 }

end

def onDisconnect (m : Manager) (peer : PeerId) : Manager := { m with peers := m.peers.erase peer }

def onDialFailed (m : Manager) (peer : PeerId) : Manager := { m with book := m.book.markFailed peer }

def penalise (m : Manager) (source : PeerId) (what : Misbehaviour) : Manager × List Directive :=
  match m.peers[source]? with
  | none => (m, [])
  | some peer =>
    let (reputation, banned) := peer.reputation.penalise what
    if banned then
      ({ m with banned := m.banned.insert source (m.uptime.saturatingAdd BAN_DURATION), peers := m.peers.erase source },
        [.disconnect source "banned"])
    else ({ m with peers := m.peers.insert source { peer with reputation } }, [])

/-! ## Catching up -/

def drainFrom (m : Manager) : ℕ → Manager × List Directive
  | 0 => (m, [])
  | fuel + 1 =>
    match m.staged[m.height]? with
    | none => (m, [])
    | some (source, sync) =>
      let (m, out) := drainFrom { m with height := m.height.next, staged := m.staged.erase m.height } fuel
      (m, .applyBlock source sync :: out)

/-- Release staged blocks in contiguous order, advancing the height as if they were applied. -/
def drainStaged (m : Manager) : Manager × List Directive := m.drainFrom m.staged.size

def rotate (m : Manager) (ids : List PeerId) (offset : ℕ) : Option PeerId :=
  ids[(m.cursor.val + offset) % 2 ^ 64 % ids.length]?

/-- A peer with no outstanding request that claims to hold `height`. -/
def freePeerHolding (m : Manager) (ids : List PeerId) (height : Height) : Option PeerId :=
  (List.range ids.length).findSome? fun offset => do
    let candidate ← m.rotate ids offset
    let peer ← m.peers[candidate]?
    if peer.awaitingBlock = none ∧ peer.tip.any (height ≤ ·) then some candidate else none

def ceiling (m : Manager) : Height := m.height.saturatingAdd (Fin.ofNat _ MAX_STAGED_BLOCKS)

def request (m : Manager) (target : PeerId) (want : Height) : Manager :=
  match m.peers[target]? with
  | none => m
  | some peer => { m with peers := m.peers.insert target { peer with awaitingBlock := some want, requestAge := 0 } }

/-- The heights from `want` up to `ceiling`, one request for each that nobody was asked for, until no free peer claims
one or too many are under way. -/
def scheduleFrom (ids : List PeerId) (ceiling : Height) :
    ℕ → Manager → List Height → ℕ → Height → Manager × List Directive
  | 0, m, _, _, _ => (m, [])
  | fuel + 1, m, claimed, inFlight, want =>
    if inFlight < MAX_BLOCKS_IN_FLIGHT ∧ want ≤ ceiling then
      if want ∈ claimed then scheduleFrom ids ceiling fuel m claimed inFlight want.next
      else
        match m.freePeerHolding ids want with
        | none => (m, [])
        | some target =>
          let (m, out) := scheduleFrom ids ceiling fuel (m.request target want) (want :: claimed) (inFlight + 1) want.next
          (m, .send target (.getBlock want) :: out)
    else (m, [])

/-- Hand out the heights this node is missing, one request per peer, lowest first. There is room for
`MAX_STAGED_BLOCKS` heights above the next one, so the search ends; at the last height the source goes on at that
height for ever if it was asked for and fewer than `MAX_BLOCKS_IN_FLIGHT` requests are out. -/
def scheduleSync (m : Manager) (ids : List PeerId) : Manager × List Directive :=
  match m.bestPeerHeight with
  | none => (m, [])
  | some best =>
    if best < m.height then (m, [])
    else
      let asked := m.peers.values.filterMap (·.awaitingBlock)
      scheduleFrom ids (min m.ceiling best) (MAX_STAGED_BLOCKS + 1) m (asked ++ m.staged.keys) asked.length m.height

def askAddrs (m : Manager) (target : PeerId) : Manager :=
  match m.peers[target]? with
  | none => m
  | some peer => { m with peers := m.peers.insert target { peer with awaitingAddrs := true } }

/-- Refresh budgets, announce where this node is, ask one peer for addresses, and catch up. -/
def onTick (m : Manager) (elapsed : Duration) : Manager × List Directive :=
  let uptime := m.uptime.saturatingAdd elapsed
  let m := { m with
    uptime
    banned := m.banned.filter fun _ until_ => uptime < until_
    peers := m.peers.map fun _ => Connected.refill elapsed
    cursor := m.cursor + 1 }
  let ids := m.peers.keys
  if ids.isEmpty then (m, [])
  else
    let m := { m with peers := m.peers.map fun _ => Connected.age }
    let status := Directive.broadcast (.status m.committedTip)
    let (m, asks) := match m.rotate ids 0 with
      | none => (m, [])
      | some target => (m.askAddrs target, [Directive.send target .getAddrs])
    let (m, applies) := m.drainStaged
    let (m, requests) := m.scheduleSync ids
    (m, status :: asks ++ applies ++ requests)

/-! ## Messages -/

def update (m : Manager) (id : PeerId) (peer : Connected) : Manager := { m with peers := m.peers.insert id peer }

/-- Take a block that was asked for, and release what can now be applied. -/
def onBlock (m : Manager) (source : PeerId) (sync : SyncBlock) : Manager × List Directive :=
  let height := sync.height
  match m.peers[source]? with
  | none => (m, [])
  | some peer =>
    if peer.awaitingBlock ≠ some height ∧ peer.abandoned ≠ some height then m.penalise source .badBlock
    else
      let abandoned := if peer.awaitingBlock ≠ some height then none else peer.abandoned
      let tip := match peer.tip with
        | none => height
        | some tip => max tip height
      let m := m.update source
        { peer with abandoned, awaitingBlock := none, requestAge := 0, served := true, tip := some tip }
      -- a reply that raced this node's own commit
      if height < m.height then (m, [])
      else if MAX_STAGED_BLOCKS ≤ m.staged.size then (m, [])
      else { m with staged := m.staged.insert height (source, sync) }.drainStaged

section

variable [Crypto]

def onAddrs (m : Manager) (source : PeerId) (addrs : List PeerAddr) : Manager × List Directive :=
  match m.peers[source]? with
  | none => (m, [])
  | some peer =>
    if !peer.awaitingAddrs then m.penalise source .badAddrs
    else
      let m := m.update source { peer with awaitingAddrs := false }
      let book := addrs.foldl (fun book addr =>
        if addr.id = m.ours then book else (book.add addr peer.addr.group).1) m.book
      ({ m with book }, [])

def onFresh (m : Manager) (source : PeerId) (peer : Connected) : PeerMessage → Manager × List Directive
  | .proposal p => (m, [.deliver (.proposal p), .relay (.proposal p) source])
  | .vote v => (m, [.deliver (.vote v), .relay (.vote v) source])
  -- the node relays a transaction it has newly accepted
  | .transaction t => (m, [.deliver (.transaction t)])
  | .getAddrs =>
    let sample := m.book.sample MAX_ADDRS m.cursor
    (m, if sample.isEmpty then [] else [.send source (.addrs sample)])
  | .addrs addrs => m.onAddrs source addrs
  | .ping nonce => (m, [.send source (.pong nonce)])
  | .pong _ => (m, [])
  | .status height => (m.update source { peer with tip := some height }, [])
  | .getBlock height => (m, [.serveBlock source height])
  | .block sync => m.onBlock source sync
  | .noBlock height =>
    if peer.awaitingBlock = some height then
      (m.update source
        { peer with awaitingBlock := none, requestAge := 0, tip := some (height.saturatingSub 1) }, [])
    else (m, [])

/-- Handle one message from one peer; `bytes` is what it cost on the wire. -/
def onMessageSized (m : Manager) (source : PeerId) (message : PeerMessage) (bytes : U64) : Manager × List Directive :=
  match m.peers[source]? with
  | none => (m, [])
  | some peer =>
    match peer.messages.take 1 with
    | (messages, false) => (m.update source { peer with messages }).penalise source .tooFast
    | (messages, true) =>
      match peer.bytes.take bytes with
      | (bytes, false) => (m.update source { peer with messages, bytes }).penalise source .tooFast
      | (bytes, true) =>
        let peer := { peer with messages, bytes }
        let m := m.update source peer
        match message.gossipId with
        | none => m.onFresh source peer message
        | some id =>
          match m.seen.insert id with
          | (_, false) => (m, [])
          | (seen, true) => ({ m with seen }).onFresh source peer message

end

end Manager

end AfroLink
