import AfroLink.Crypto.Basic

/-!
# Peers

Who a peer is, where it is, and the slice of the address space it counts as.
-/

namespace AfroLink

/-- A node's network identity: its long-term signing key. -/
structure PeerId where
  key : PublicKey
deriving DecidableEq

namespace PeerId

instance : Ord PeerId := ⟨compareOn fun id => id.key.bytes⟩

instance : Std.TransOrd PeerId := inferInstanceAs (Std.TransCmp (compareOn fun id : PeerId => id.key.bytes))

instance : Std.LawfulEqOrd PeerId where
  eq_of_compare {a b} h := by
    have hcompare : compare a.key.bytes b.key.bytes = .eq := h
    have hbytes : a.key.bytes = b.key.bytes := Std.LawfulEqCmp.eq_of_compare hcompare
    obtain ⟨⟨x⟩⟩ := a
    obtain ⟨⟨y⟩⟩ := b
    cases hbytes
    rfl

end PeerId

inductive IpAddr where
  | v4 (octets : Vector U8 4)
  | v6 (octets : Vector U8 16)
deriving DecidableEq

def IpAddr.isLoopback : IpAddr → Bool
  | v4 o => o[0] == 127
  | v6 o => o == #v[0, 0, 0, 0, 0, 0, 0, 0, 0, 0, 0, 0, 0, 0, 0, 1]

structure SocketAddr where
  ip : IpAddr
  port : U16
deriving DecidableEq

/-- An IPv4 /16 or an IPv6 /32, or a single loopback socket. -/
structure AddrGroup where
  asBytes : Vector U8 8
deriving DecidableEq

/-- The group a socket address belongs to. The port counts on loopback only. -/
def AddrGroup.of (addr : SocketAddr) : AddrGroup :=
  let high : U8 := Fin.ofNat _ (addr.port.val / 256)
  let low : U8 := Fin.ofNat _ addr.port.val
  match addr.ip with
  | .v4 o =>
    if addr.ip.isLoopback then ⟨#v[1, o[2], o[3], high, low, 0, 0, 0]⟩
    else ⟨#v[0, o[0], o[1], 0, 0, 0, 0, 0]⟩
  | .v6 o =>
    if addr.ip.isLoopback then ⟨#v[1, 0, 0, high, low, 0, 0, 0]⟩
    else ⟨#v[2, o[0], o[1], o[2], o[3], 0, 0, 0]⟩

/-- A peer's identity together with where to reach it. -/
structure PeerAddr where
  id : PeerId
  addr : SocketAddr
deriving DecidableEq

def PeerAddr.group (a : PeerAddr) : AddrGroup := .of a.addr

/-! ## Reputation -/

/-- Something a peer did that a node holds against it. -/
inductive Misbehaviour where
  | oversized | undecodable | badSignature | tooFast | badAddrs | badBlock | unforgivable
deriving DecidableEq

def BAN_THRESHOLD : ℕ := 100

def Misbehaviour.penalty : Misbehaviour → ℕ
  | tooFast | badAddrs => 5
  | undecodable | oversized | badBlock => 20
  | badSignature => 50
  | unforgivable => BAN_THRESHOLD

/-- An `i32` that starts at zero and never goes down. -/
structure Reputation where
  score : ℕ
deriving DecidableEq

namespace Reputation

def new : Reputation := ⟨0⟩

def isBanned (r : Reputation) : Bool := BAN_THRESHOLD ≤ r.score

/-- The score after a misbehaviour, and whether the peer is now banned. -/
def penalise (r : Reputation) (what : Misbehaviour) : Reputation × Bool :=
  let r : Reputation := ⟨min (r.score + what.penalty) (2 ^ 31 - 1)⟩
  (r, r.isBanned)

end Reputation

end AfroLink
