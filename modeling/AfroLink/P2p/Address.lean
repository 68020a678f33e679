import AfroLink.Crypto.Codec
import AfroLink.P2p.Peer

/-!
# Addresses on the wire

A socket address is a family byte, the octets and the port. `PeerAddr` and the claim of a handshake write it the same
way; the claim has a third family for "none", and only `PeerAddr` refuses port zero.
-/

namespace AfroLink

def takeArray (n : ℕ) : Decoder (Vector U8 n) := do
  let bytes ← take n
  return Vector.ofFn fun i => bytes.getD i.val 0

theorem takeArray_reads {n : ℕ} (v : Vector U8 n) : Reads (takeArray n) v.toList v := by
  have hbytes := take_reads v.toList
  rw [Vector.length_toList] at hbytes
  have hval : (Vector.ofFn fun i : Fin n => v.toList.getD i.val 0) = v := by
    ext i hi
    simp
  have hread : Reads (takeArray n) v.toList (Vector.ofFn fun i : Fin n => v.toList.getD i.val 0) := hbytes.last
  rwa [hval] at hread

def IpAddr.isUnspecified : IpAddr → Bool
  | v4 o => o == #v[0, 0, 0, 0]
  | v6 o => o == #v[0, 0, 0, 0, 0, 0, 0, 0, 0, 0, 0, 0, 0, 0, 0, 0]

def IpAddr.encode : IpAddr → Bytes
  | v4 o => 4 :: o.toList
  | v6 o => 6 :: o.toList

/-! ## Claims -/

def encodeClaim : Option SocketAddr → Bytes
  | none => [0]
  | some addr => addr.ip.encode ++ encode addr.port

def decodeClaim : Decoder (Option SocketAddr) := do
  let tag ← (decode : Decoder U8)
  match tag.val with
  | 0 => return none
  | 4 =>
    let octets ← takeArray 4
    let port ← decode
    return some ⟨.v4 octets, port⟩
  | 6 =>
    let octets ← takeArray 16
    let port ← decode
    return some ⟨.v6 octets, port⟩
  | _ => throw (.unknownDiscriminant tag "Auth/listen family")

theorem decodeClaim_reads : ∀ listen, Reads decodeClaim (encodeClaim listen) listen
  | none => (tag_reads 0).cons (.pure none)
  | some ⟨.v4 o, port⟩ => (tag_reads 4).cons ((takeArray_reads o).bind (reads port rfl).last)
  | some ⟨.v6 o, port⟩ => (tag_reads 6).cons ((takeArray_reads o).bind (reads port rfl).last)

/-! ## Peer addresses -/

instance : Encode PeerId := ⟨fun id => encode id.key⟩

instance : Decode PeerId where
  decode := do
    let key ← decode
    return ⟨key⟩

instance : RoundTrip PeerId := ⟨fun _ => true, fun id _ => (reads id.key rfl).last⟩

instance : Encode PeerAddr := ⟨fun a => encode a.id ++ (a.addr.ip.encode ++ encode a.addr.port)⟩

def decodeIp : Decoder IpAddr := do
  let tag ← (decode : Decoder U8)
  match tag.val with
  | 4 =>
    let octets ← takeArray 4
    return .v4 octets
  | 6 =>
    let octets ← takeArray 16
    return .v6 octets
  | _ => throw (.unknownDiscriminant tag "PeerAddr/family")

theorem decodeIp_reads : ∀ ip, Reads decodeIp ip.encode ip
  | .v4 o => (tag_reads 4).cons (takeArray_reads o).last
  | .v6 o => (tag_reads 6).cons (takeArray_reads o).last

instance : Decode PeerAddr where
  decode := do
    let id ← decode
    let ip ← decodeIp
    let port ← (decode : Decoder U16)
    if port.val = 0 then throw (.invalid "peer port must not be zero")
    return ⟨id, ip, port⟩

instance : RoundTrip PeerAddr where
  readable a := a.addr.port.val ≠ 0
  reads a h := by
    have hport := of_decide_eq_true h
    refine (reads a.id rfl).bind ((decodeIp_reads a.addr.ip).bind ?_)
    exact ((reads a.addr.port rfl).bind (.guard hport (.pure a))).cast (List.append_nil _)

end AfroLink
