import AfroLink.P2p.Address
import AfroLink.P2p.Secret
import AfroLink.State.Store

/-!
# The handshake

An ephemeral key exchange, then each side signs the transcript under its long-term key. It is written over the symbols
its strings are made of: bytes with the linked primitives, or terms.
-/

namespace AfroLink

abbrev Scalar := Fin (2 ^ 256)
/-- A key on the wire, read as a big-endian number: byte order is numeric order. -/
abbrev X25519Key := Fin (2 ^ 256)

/-- The primitives the handshake links against, over strings of `τ`. -/
class Suite (τ : Type) extends Aead τ where
  byte : U8 → τ
  asByte : τ → Option U8
  x25519Public : Scalar → X25519Key
  /-- Nothing if the peer's key does not contribute to the shared secret. -/
  diffieHellman : Scalar → X25519Key → Option (List τ)
  hash : Domain → List τ → List τ
  publicKey : SecretKey → PublicKey
  sign : SecretKey → Domain → List τ → List τ
  verify : PublicKey → Domain → List τ → List τ → Bool
  signatureLen : ℕ
  asByte_byte : ∀ b, asByte (byte b) = some b
  length_sign : ∀ key domain text, (sign key domain text).length = signatureLen

/-- X25519, as linked. -/
class X25519 where
  publicOf : Scalar → X25519Key
  diffieHellman : Scalar → X25519Key → Option Hash32

instance Suite.linked [Crypto] [X25519] [Aead U8] : Suite U8 where
  byte b := b
  asByte b := some b
  x25519Public := X25519.publicOf
  diffieHellman ephemeral theirs := (X25519.diffieHellman ephemeral theirs).map Hash32.asBytes
  hash domain text := (AfroLink.hash domain text).asBytes
  publicKey := SecretKey.publicKey
  sign key domain text := encode (key.sign domain text)
  verify key domain text signature := key.verify domain text ⟨Fin.ofNat _ (fromBe signature)⟩
  signatureLen := 64
  asByte_byte _ := rfl
  length_sign _ _ _ := length_beBytes 64 _

def PROTOCOL_VERSION : U16 := 2

/-- Bytes in the first message: version, then the ephemeral public key. -/
def HELLO_LEN : ℕ := 2 + 32

inductive HandshakeError where
  | version (theirs : U16)
  | malformedHello (len : ℕ)
  | nonContributory
  | malformedAuth (reason : String)
  | notAuthentic
  | badSignature
  | wrongPeer (expected found : String)
  | selfConnection
  | entropyUnavailable
deriving DecidableEq

def PeerId.short (id : PeerId) : String := StoreKey.hexOf (id.key.toBytes.take 4)

def isDialable (addr : SocketAddr) : Bool := !addr.ip.isUnspecified && addr.port.val != 0

variable {τ : Type} [Suite τ]

def text (bytes : Bytes) : List τ := bytes.map Suite.byte

/-- The transcript both sides must agree on, or nothing verifies. -/
def transcript (chainId : ChainId) (ours theirs : X25519Key) : List τ :=
  let (lower, upper) := if ours ≤ theirs then (ours, theirs) else (theirs, ours)
  Suite.hash .p2pTranscript
    (text (leBytes 2 PROTOCOL_VERSION.val ++ encode chainId ++ beBytes 32 lower.val ++ beBytes 32 upper.val))

def directionKey (label : String) (shared transcript : List τ) : List τ :=
  Suite.hash .p2pSessionKey (text (utf8Bytes label) ++ shared ++ transcript)

/-- What each side sends, encrypted, to prove who it is. -/
structure Auth (τ : Type) where
  key : PublicKey
  listen : Option SocketAddr
  signature : List τ

/-- What the signature covers: the transcript, and the claim made alongside it. -/
def signDoc (transcript : List τ) (listen : Option SocketAddr) : List τ := transcript ++ text (encodeClaim listen)

namespace Auth

def encode (a : Auth τ) : List τ := text (Encode.encode a.key ++ encodeClaim a.listen) ++ a.signature

def leadingBytes : List τ → Bytes
  | [] => []
  | t :: rest =>
    match Suite.asByte t with
    | some b => b :: leadingBytes rest
    | none => []

def ofBytes {α : Type} (d : Decoder α) : Reader τ CodecError α := fun buf =>
  match d.run (leadingBytes buf) with
  | .ok (a, left) => .ok (a, buf.drop ((leadingBytes buf).length - left.length))
  | .error e => .error e

def takeSymbols (n : ℕ) : Reader τ CodecError (List τ) := fun buf =>
  if buf.length < n then .error (.unexpectedEof n buf.length) else .ok (buf.take n, buf.drop n)

def decode : Reader τ CodecError (Auth τ) := do
  let key ← ofBytes Decode.decode
  let listen ← ofBytes decodeClaim
  let signature ← takeSymbols (Suite.signatureLen τ)
  return { key, listen, signature }

def decodeExact (plaintext : List τ) : Except CodecError (Auth τ) :=
  match decode.run plaintext with
  | .ok (a, []) => .ok a
  | .ok (_, left) => .error (.trailingBytes left.length)
  | .error e => .error e

end Auth

/-- A handshake in progress: the ephemeral secret, waiting for a peer's hello. -/
structure Handshake (τ : Type) [Suite τ] where
  chainId : ChainId
  ephemeral : Scalar
  ours : X25519Key
  derived : ours = Suite.x25519Public τ ephemeral

/-- A handshake past the key exchange, waiting to check who the peer is. -/
structure Pending (τ : Type) where
  session : Secret.Session τ
  transcript : List τ
  authFrame : List τ

structure Established (τ : Type) where
  session : Secret.Session τ
  peer : PeerId
  listen : Option SocketAddr

namespace Handshake

/-- Begin a handshake, returning the bytes to send first. `entropy` is what the operating system gave. -/
def start (chainId : ChainId) (entropy : Option Scalar) : Except HandshakeError (Handshake τ × Bytes) :=
  match entropy with
  | none => .error .entropyUnavailable
  | some ephemeral =>
    let ours := Suite.x25519Public τ ephemeral
    .ok (⟨chainId, ephemeral, ours, rfl⟩, leBytes 2 PROTOCOL_VERSION.val ++ beBytes 32 ours.val)

def helloVersion (hello : Bytes) : U16 := Fin.ofNat _ (fromLe (hello.take 2))

def helloKey (hello : Bytes) : X25519Key := Fin.ofNat _ (fromBe (hello.drop 2))

/-- The labels of the sending and the receiving key: the sorted order of the ephemeral keys decides the direction. -/
def labels (ours theirs : X25519Key) : String × String :=
  if ours ≤ theirs then ("lower-to-upper", "upper-to-lower") else ("upper-to-lower", "lower-to-upper")

/-- What proves this node's identity. It advertises nothing rather than something undialable. -/
def prove (key : SecretKey) (listen : Option SocketAddr) (transcript : List τ) : Auth τ :=
  let listen := listen.filter isDialable
  { key := Suite.publicKey τ key, listen
    signature := Suite.sign key .p2pHandshakeSignDoc (signDoc transcript listen) }

def respond (h : Handshake τ) (hello : Bytes) (key : SecretKey) (listen : Option SocketAddr) :
    Except HandshakeError (Pending τ) := do
  if hello.length ≠ HELLO_LEN then throw (.malformedHello hello.length)
  if helloVersion hello ≠ PROTOCOL_VERSION then throw (.version (helloVersion hello))
  let theirs := helloKey hello
  match Suite.diffieHellman h.ephemeral theirs with
  | none => throw .nonContributory
  | some shared =>
    let transcript := AfroLink.transcript h.chainId h.ours theirs
    let (sendLabel, recvLabel) := labels h.ours theirs
    let session := Secret.Session.new (directionKey sendLabel shared transcript)
      (directionKey recvLabel shared transcript)
    match session.sealFrame (prove key listen transcript).encode [] with
    | (.ok authFrame, session) => return { session, transcript, authFrame }
    | (.error _, _) => throw .notAuthentic

end Handshake

def Pending.finish (p : Pending τ) (frame : List τ) (ours : PeerId) (expected : Option PeerId) :
    Except HandshakeError (Established τ) := do
  match p.session.openFrame frame [] with
  | (.error _, _) => throw .notAuthentic
  | (.ok plaintext, session) =>
    match Auth.decodeExact plaintext with
    | .error e => throw (.malformedAuth e.text)
    | .ok auth =>
      if !Suite.verify auth.key .p2pHandshakeSignDoc (signDoc p.transcript auth.listen) auth.signature then
        throw .badSignature
      let peer : PeerId := ⟨auth.key⟩
      if peer = ours then throw .selfConnection
      if let some expected := expected then
        if expected ≠ peer then throw (.wrongPeer expected.short peer.short)
      return { session, peer, listen := auth.listen.filter isDialable }

end AfroLink
