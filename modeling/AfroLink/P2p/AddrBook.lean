import AfroLink.Base.Select
import AfroLink.P2p.Peer
import AfroLink.Primitives.Decode

/-!
# The address book

Known addresses in two tables of salted buckets: those a peer told of, by the group that told, and those that
answered, by their own group.
-/

open Std (TreeMap)

namespace AfroLink

def NEW_BUCKETS : ℕ := 256
def TRIED_BUCKETS : ℕ := 64
def BUCKET_SIZE : ℕ := 8
def NEW_BUCKETS_PER_SOURCE : ℕ := 32
def TRIED_BUCKETS_PER_GROUP : ℕ := 4

def SecretKey.toBytes (sk : SecretKey) : Bytes := beBytes 32 sk.bytes.val

structure Entry where
  addr : PeerAddr
  /-- Failed attempts since it last worked. -/
  failures : U32
  /-- Whether a handshake with it has ever completed. -/
  tried : Bool
deriving DecidableEq

/-- A table of buckets. A bucket that is not there is an empty one. -/
abbrev BucketTable := TreeMap ℕ (List PeerId)

structure AddrBook where
  entries : TreeMap PeerId Entry
  newTable : BucketTable
  triedTable : BucketTable
  salt : Hash32

namespace AddrBook

def get (b : AddrBook) (id : PeerId) : Option Entry := b.entries[id]?

def triedAddresses (b : AddrBook) : List PeerAddr := (b.entries.values.filter (·.tried)).map (·.addr)

def worst (entries : TreeMap PeerId Entry) (slot : List PeerId) : Option PeerId :=
  let failures (id : PeerId) : U32 := (entries[id]?.map (·.failures)).getD 0
  slot.lastMaxBy fun a b => failures a ≤ failures b

def markFailed (b : AddrBook) (id : PeerId) : AddrBook :=
  match b.entries[id]? with
  | none => b
  | some entry => { b with entries := b.entries.insert id { entry with failures := entry.failures.saturatingAdd 1 } }

/-- The first usable occupant of a bucket, from the offset the cursor gives. -/
def pick (b : AddrBook) (avoid : List AddrGroup) (cursor : U64) (slot : List PeerId) : Option PeerAddr :=
  let offset := cursor.val % BUCKET_SIZE
  (List.range slot.length).findSome? fun i => do
    let id ← slot[(i + offset) % slot.length]?
    let entry ← b.entries[id]?
    if avoid.contains entry.addr.group then none else some entry.addr

/-- A peer to dial outside the groups to avoid. The tried table comes first two times in three. -/
def select (b : AddrBook) (avoid : List AddrGroup) (cursor : U64) : Option PeerAddr :=
  let order := if cursor.val % 3 ≠ 0 then [true, false] else [false, true]
  order.findSome? fun fromTried =>
    let (table, count) := if fromTried then (b.triedTable, TRIED_BUCKETS) else (b.newTable, NEW_BUCKETS)
    (List.range count).findSome? fun step => do
      let slot ← table[(cursor.val + step) % 2 ^ 64 % count]?
      b.pick avoid cursor slot

/-- Tried addresses to answer a peer with, at most `limit` of them. -/
def sample (b : AddrBook) (limit : ℕ) (cursor : U64) : List PeerAddr :=
  let tried := b.triedAddresses
  let start := cursor.val % tried.length
  (tried.drop start ++ tried.take start).take limit

variable [Crypto]

def new (key : SecretKey) : AddrBook :=
  ⟨∅, ∅, ∅, hashParts .p2pAddrBucket [utf8Bytes "salt", key.toBytes]⟩

def hash (b : AddrBook) (parts : List Bytes) : ℕ :=
  fromLe ((hashParts .p2pAddrBucket (b.salt.asBytes :: parts)).asBytes.take 8)

/-- Two hashes: the first is cut to the few indices a source may reach, the second spreads those over the table. -/
def newBucket (b : AddrBook) (addr : PeerAddr) (source : AddrGroup) : ℕ :=
  let first := b.hash [utf8Bytes "new1", addr.group.asBytes.toList, source.asBytes.toList]
  let index := first % NEW_BUCKETS_PER_SOURCE
  b.hash [utf8Bytes "new2", source.asBytes.toList, leBytes 8 index] % NEW_BUCKETS

def triedBucket (b : AddrBook) (addr : PeerAddr) : ℕ :=
  let first := b.hash [utf8Bytes "tried1", addr.id.key.toBytes]
  let index := first % TRIED_BUCKETS_PER_GROUP
  b.hash [utf8Bytes "tried2", addr.group.asBytes.toList, leBytes 8 index] % TRIED_BUCKETS

/-- Record an address learned from a peer in `source`; the flag says whether it was new. -/
def add (b : AddrBook) (addr : PeerAddr) (source : AddrGroup) : AddrBook × Bool :=
  if b.entries.contains addr.id then (b, false)
  else
    let bucket := b.newBucket addr source
    let slot := b.newTable.getD bucket []
    let place (b : AddrBook) (slot : List PeerId) : AddrBook :=
      { b with
        newTable := b.newTable.insert bucket (slot ++ [addr.id])
        entries := b.entries.insert addr.id ⟨addr, 0, false⟩ }
    if slot.length < BUCKET_SIZE then (place b slot, true)
    else
      match worst b.entries slot with
      | none => (b, false)
      | some out =>
        match b.entries[out]? with
        | none => (b, false)
        | some entry =>
          -- nothing there has ever failed: the newcomer is refused
          if entry.failures = 0 then (b, false)
          else (place { b with entries := b.entries.erase out } (slot.filter (· ≠ out)), true)

/-- A handshake with this peer completed. A full bucket of the tried table loses its worst occupant. -/
def markGood (b : AddrBook) (id : PeerId) : AddrBook :=
  match b.entries[id]? with
  | none => b
  | some entry =>
    if entry.tried then { b with entries := b.entries.insert id { entry with failures := 0 } }
    else
      let entries := b.entries.insert id { entry with failures := 0, tried := true }
      let newTable : BucketTable := b.newTable.map fun _ slot => slot.filter (· ≠ id)
      let bucket := b.triedBucket entry.addr
      let slot := b.triedTable.getD bucket []
      let (entries, slot) :=
        if slot.length < BUCKET_SIZE then (entries, slot)
        else
          match worst entries slot with
          | none => (entries, slot)
          | some out =>
            let demoted := match entries[out]? with
              | none => entries
              | some e => entries.insert out { e with tried := false }
            (demoted, slot.filter (· ≠ out))
      { b with entries, newTable, triedTable := b.triedTable.insert bucket (slot ++ [id]) }

end AddrBook

end AfroLink
