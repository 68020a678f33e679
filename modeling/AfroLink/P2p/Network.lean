import AfroLink.Base.Symbolic
import AfroLink.P2p.Handshake

/-!
# Handshakes on a network

The handshake over terms, run any number of times by honest nodes whose every byte goes through an attacker.
-/

namespace AfroLink

/-- The points of the curve behind the ephemeral keys, and the signing keys behind the secrets. Several keys on the wire
may be one point. -/
class Curve (ρ : Type) where
  publicOf : Scalar → X25519Key
  /-- Nothing for a key of low order. -/
  pointOf : X25519Key → Option ρ
  verifyingKey : SecretKey → PublicKey

abbrev Symbol (ρ : Type) := Term U8 PublicKey Domain ρ

noncomputable section

open Classical in
instance Aead.symbolic {ρ : Type} : Aead (Symbol ρ) where
  encrypt key nonce plaintext associated := some [.cipher key (nonce.map .byte) associated plaintext]
  decrypt
    | key, nonce, [.cipher k n a plaintext], associated =>
      if k = key ∧ n = nonce.map .byte ∧ a = associated then some plaintext else none
    | _, _, _, _ => none

open Classical in
/-- Digests and signatures are what they were made of; a shared secret is its two points. -/
instance Suite.symbolic {ρ : Type} [Curve ρ] : Suite (Symbol ρ) where
  byte := .byte
  asByte
    | .byte b => some b
    | _ => none
  x25519Public := Curve.publicOf ρ
  diffieHellman ephemeral theirs := do
    let p : ρ ← Curve.pointOf (Curve.publicOf ρ ephemeral)
    let q ← Curve.pointOf theirs
    return [.shared s(p, q)]
  hash domain text := [.digest domain text]
  publicKey := Curve.verifyingKey ρ
  sign key domain text := [.signature (Curve.verifyingKey ρ key) domain text]
  verify key domain text signature := signature = [.signature key domain text]
  signatureLen := 1
  asByte_byte _ := rfl
  length_sign _ _ _ := rfl

end

/-- One run of `respond` that went through. -/
structure Exchange (ρ : Type) [Curve ρ] where
  handshake : Handshake (Symbol ρ)
  hello : Bytes
  key : SecretKey
  listen : Option SocketAddr
  pending : Pending (Symbol ρ)
  ran : handshake.respond hello key listen = .ok pending

namespace Exchange

variable {ρ : Type} [Curve ρ] (x : Exchange ρ)

def identity : PeerId := ⟨Curve.verifyingKey ρ x.key⟩

/-- The protocol version it ran with: the one its hello announced. -/
def version : U16 := Handshake.helloVersion x.hello

def ours : X25519Key := x.handshake.ours
def theirs : X25519Key := Handshake.helloKey x.hello

def claim : Option SocketAddr := x.listen.filter isDialable

end Exchange

/-- The handshakes of the honest nodes, by how far they got. -/
structure Network (ρ : Type) [Curve ρ] where
  /-- Waiting for a hello. -/
  opened : List (Handshake (Symbol ρ))
  /-- Past `respond`, all of them. -/
  exchanges : List (Exchange ρ)
  /-- Past `respond` and waiting for a frame. -/
  waiting : List (Exchange ρ)
  established : List (Exchange ρ × Established (Symbol ρ))

namespace Network

variable {ρ : Type} [Curve ρ]

def empty : Network ρ := ⟨[], [], [], []⟩

def points (n : Network ρ) : List (Option ρ) :=
  (n.opened.map (·.ours) ++ n.exchanges.map Exchange.ours).map Curve.pointOf

/-- What the attacker has: the secrets of the points it `held`, every signing key that is not honest and whatever an
honest key signs outside a handshake, and the authentication frames. Honest sessions seal for it whatever it likes, with
any nonce but that of the authentication frame. -/
def knowledge (held : ρ → Prop) (honest : PublicKey → Prop) (n : Network ρ) : Knowledge U8 PublicKey Domain ρ where
  holds := held
  signs key domain := ¬ honest key ∨ domain ≠ .p2pHandshakeSignDoc
  seals key nonce _ := (∃ x ∈ n.exchanges, x.pending.session.send.cipher = key) ∧ nonce ≠ text (Direction.nonce 0)
  made key domain doc := ∃ x ∈ n.exchanges, x.identity.key = key ∧ domain = .p2pHandshakeSignDoc ∧
    signDoc x.pending.transcript x.claim = doc
  sent key nonce associated plaintext := ∃ x ∈ n.exchanges,
    x.pending.authFrame = [.cipher key nonce associated plaintext]

variable (held : ρ → Prop) (honest : PublicKey → Prop)

/-- One move of an honest node. A hello is any bytes, a frame is anything the attacker can come to know. -/
inductive Step : Network ρ → Network ρ → Prop
  /-- The operating system gives a secret nobody else has. -/
  | start {n chainId ephemeral h hello} : Handshake.start chainId (some ephemeral) = .ok (h, hello) →
      (∀ p, Curve.pointOf h.ours = some p → ¬ held p) → Curve.pointOf h.ours ∉ n.points →
      Step n { n with opened := h :: n.opened }
  | respond {n} (before after) (x : Exchange ρ) : n.opened = before ++ x.handshake :: after → honest x.identity.key →
      Step n { n with opened := before ++ after, exchanges := x :: n.exchanges, waiting := x :: n.waiting }
  | finish {n frame expected est} (before after) (x : Exchange ρ) : n.waiting = before ++ x :: after →
      (∀ t ∈ frame, (n.knowledge held honest).Derivable t) → x.pending.finish frame x.identity expected = .ok est →
      Step n { n with waiting := before ++ after, established := (x, est) :: n.established }
  /-- A hello or a frame that is refused, or a connection that is lost. -/
  | drop {n opened waiting} : opened.Sublist n.opened → waiting.Sublist n.waiting → Step n { n with opened, waiting }

def Reachable (n : Network ρ) : Prop := Relation.ReflTransGen (Step held honest) empty n

end Network

end AfroLink
