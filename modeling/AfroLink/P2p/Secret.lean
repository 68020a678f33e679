import AfroLink.Primitives.Codec

/-!
# The encrypted channel

One key a direction and a counter that never repeats. The strings are over any type of symbols: over bytes this is the
channel of the node, over terms the one an attacker is reasoned about. `seal` and `open` are `sealFrame` and
`openFrame`.
-/

namespace AfroLink

/-- The linked cipher: key, nonce, message and associated data. -/
class Aead (τ : Type) where
  encrypt : List τ → Bytes → List τ → List τ → Option (List τ)
  decrypt : List τ → Bytes → List τ → List τ → Option (List τ)

def TAG_LEN : ℕ := 16

inductive SessionError where
  | notAuthentic | exhausted
deriving DecidableEq

structure Direction (τ : Type) where
  cipher : List τ
  counter : U64

namespace Direction

variable {τ : Type}

def new (key : List τ) : Direction τ := ⟨key, 0⟩

def nonce (counter : U64) : Bytes := List.replicate 4 0 ++ leBytes 8 counter.val

/-- The nonce for the next frame, and the counter advanced past it. -/
def nextNonce (d : Direction τ) : Except SessionError (Bytes × Direction τ) :=
  match Fin.checkedAdd d.counter 1 with
  | some counter => .ok (nonce d.counter, { d with counter })
  | none => .error .exhausted

variable [Aead τ]

def sealFrame (d : Direction τ) (plaintext associated : List τ) : Except SessionError (List τ) × Direction τ :=
  match d.nextNonce with
  | .error e => (.error e, d)
  | .ok (nonce, d) =>
    match Aead.encrypt d.cipher nonce plaintext associated with
    | some ciphertext => (.ok ciphertext, d)
    | none => (.error .notAuthentic, d)

def openFrame (d : Direction τ) (ciphertext associated : List τ) : Except SessionError (List τ) × Direction τ :=
  match d.nextNonce with
  | .error e => (.error e, d)
  | .ok (nonce, d) =>
    match Aead.decrypt d.cipher nonce ciphertext associated with
    | some plaintext => (.ok plaintext, d)
    | none => (.error .notAuthentic, d)

end Direction

/-- An encrypted, authenticated channel with one peer. -/
structure Secret.Session (τ : Type) where
  send : Direction τ
  recv : Direction τ

structure Sealer (τ : Type) where
  direction : Direction τ

structure Opener (τ : Type) where
  direction : Direction τ

section

variable {τ : Type} [Aead τ]

namespace Secret.Session

def new (sendKey recvKey : List τ) : Secret.Session τ := ⟨.new sendKey, .new recvKey⟩

def sealFrame (s : Secret.Session τ) (plaintext associated : List τ) : Except SessionError (List τ) × Secret.Session τ :=
  let (result, send) := s.send.sealFrame plaintext associated
  (result, { s with send })

def openFrame (s : Secret.Session τ) (ciphertext associated : List τ) : Except SessionError (List τ) × Secret.Session τ :=
  let (result, recv) := s.recv.openFrame ciphertext associated
  (result, { s with recv })

def split (s : Secret.Session τ) : Sealer τ × Opener τ := (⟨s.send⟩, ⟨s.recv⟩)

end Secret.Session

def Sealer.sealFrame (s : Sealer τ) (plaintext associated : List τ) : Except SessionError (List τ) × Sealer τ :=
  let (result, direction) := s.direction.sealFrame plaintext associated
  (result, ⟨direction⟩)

def Opener.openFrame (o : Opener τ) (ciphertext associated : List τ) : Except SessionError (List τ) × Opener τ :=
  let (result, direction) := o.direction.openFrame ciphertext associated
  (result, ⟨direction⟩)

end

theorem Direction.nextNonce_new {τ : Type} (key : List τ) : (new key).nextNonce = .ok (nonce 0, ⟨key, 1⟩) := rfl

end AfroLink
