import Mathlib

/-!
# Symbolic messages

A message is a list of terms: bytes, a Diffie–Hellman secret named by its two points, and digests, signatures and
ciphertexts named by what went into them. `Derivable K t`: an attacker that knows `K` builds `t`. What it takes apart it
could have built (`Derivable.built`), so every term it has is one it was given or one it made from what it has.
-/

/-- Over bytes `β`, public keys `κ`, domains `δ` and curve points `ρ`. -/
inductive Term (β κ δ ρ : Type) where
  | byte (b : β)
  | shared (points : Sym2 ρ)
  | digest (domain : δ) (text : List (Term β κ δ ρ))
  | signature (key : κ) (domain : δ) (text : List (Term β κ δ ρ))
  | cipher (key nonce associated plaintext : List (Term β κ δ ρ))

structure Knowledge (β κ δ ρ : Type) where
  /-- The points whose secret it holds. -/
  holds : ρ → Prop
  /-- The keys and domains under which it has any text signed. -/
  signs : κ → δ → Prop
  /-- The key, nonce and associated data under which it has any text of its own sealed. -/
  seals : List (Term β κ δ ρ) → List (Term β κ δ ρ) → List (Term β κ δ ρ) → Prop
  /-- The other signatures that were made. -/
  made : κ → δ → List (Term β κ δ ρ) → Prop
  /-- The other ciphertexts that were sent. -/
  sent : List (Term β κ δ ρ) → List (Term β κ δ ρ) → List (Term β κ δ ρ) → List (Term β κ δ ρ) → Prop

namespace Knowledge

variable {β κ δ ρ : Type}

/-- The terms the attacker can come to know. A signature that was made reaches it inside a ciphertext. -/
inductive Derivable (K : Knowledge β κ δ ρ) : Term β κ δ ρ → Prop
  | byte (b) : Derivable K (.byte b)
  | shared {x points} : x ∈ points → K.holds x → Derivable K (.shared points)
  | digest {domain text} : (∀ t ∈ text, Derivable K t) → Derivable K (.digest domain text)
  | sign {key domain text} : K.signs key domain → Derivable K (.signature key domain text)
  | sent {key nonce associated plaintext} : K.sent key nonce associated plaintext →
      Derivable K (.cipher key nonce associated plaintext)
  | seals {key nonce associated plaintext} : K.seals key nonce associated → (∀ t ∈ plaintext, Derivable K t) →
      Derivable K (.cipher key nonce associated plaintext)
  | encrypt {key nonce associated plaintext} : (∀ t ∈ key, Derivable K t) → (∀ t ∈ plaintext, Derivable K t) →
      Derivable K (.cipher key nonce associated plaintext)
  | decrypt {key nonce associated plaintext t} : Derivable K (.cipher key nonce associated plaintext) →
      (∀ t ∈ key, Derivable K t) → t ∈ plaintext → Derivable K t

/-- The same without taking anything apart. -/
inductive Built (K : Knowledge β κ δ ρ) : Term β κ δ ρ → Prop
  | byte (b) : Built K (.byte b)
  | shared {x points} : x ∈ points → K.holds x → Built K (.shared points)
  | digest {domain text} : (∀ t ∈ text, Built K t) → Built K (.digest domain text)
  | sign {key domain text} : K.signs key domain → Built K (.signature key domain text)
  | made {key domain text} : K.made key domain text → Built K (.signature key domain text)
  | sent {key nonce associated plaintext} : K.sent key nonce associated plaintext →
      (∀ t ∈ plaintext, Built K t) → Built K (.cipher key nonce associated plaintext)
  | seals {key nonce associated plaintext} : K.seals key nonce associated → (∀ t ∈ plaintext, Built K t) →
      Built K (.cipher key nonce associated plaintext)
  | encrypt {key nonce associated plaintext} : (∀ t ∈ key, Built K t) → (∀ t ∈ plaintext, Built K t) →
      Built K (.cipher key nonce associated plaintext)

/-- What was sent holds nothing the attacker could not have built. -/
def Closed (K : Knowledge β κ δ ρ) : Prop :=
  ∀ key nonce associated plaintext, K.sent key nonce associated plaintext → ∀ t ∈ plaintext, K.Built t

/-- The attacker of `K'` is given all that of `K` is. -/
structure Le (K K' : Knowledge β κ δ ρ) : Prop where
  holds : ∀ x, K.holds x → K'.holds x
  signs : ∀ key domain, K.signs key domain → K'.signs key domain
  seals : ∀ key nonce associated, K.seals key nonce associated → K'.seals key nonce associated
  sent : ∀ key nonce associated plaintext, K.sent key nonce associated plaintext →
    K'.sent key nonce associated plaintext

theorem Derivable.mono {K K' : Knowledge β κ δ ρ} (hle : K.Le K') {t : Term β κ δ ρ} (h : K.Derivable t) :
    K'.Derivable t := by
  induction h with
  | byte b => exact .byte b
  | shared hx hheld => exact .shared hx (hle.holds _ hheld)
  | digest _ ih => exact .digest ih
  | sign hsign => exact .sign (hle.signs _ _ hsign)
  | sent hsent => exact .sent (hle.sent _ _ _ _ hsent)
  | seals hseals _ ih => exact .seals (hle.seals _ _ _ hseals) ih
  | encrypt _ _ ihkey ihplain => exact .encrypt ihkey ihplain
  | decrypt _ _ ht ih ihkey => exact .decrypt ih ihkey ht

variable {K : Knowledge β κ δ ρ} {key nonce associated plaintext text : List (Term β κ δ ρ)}

theorem Built.opened (h : K.Built (.cipher key nonce associated plaintext)) : ∀ t ∈ plaintext, K.Built t := by
  cases h with
  | sent _ hp => exact hp
  | seals _ hp => exact hp
  | encrypt _ hp => exact hp

theorem Derivable.built (hK : K.Closed) {t : Term β κ δ ρ} (h : K.Derivable t) : K.Built t := by
  induction h with
  | byte b => exact .byte b
  | shared hx hheld => exact .shared hx hheld
  | digest _ ih => exact .digest ih
  | sign hsign => exact .sign hsign
  | sent hsent => exact .sent hsent (hK _ _ _ _ hsent)
  | seals hseals _ ih => exact .seals hseals ih
  | encrypt _ _ ihkey ihplain => exact .encrypt ihkey ihplain
  | decrypt _ _ ht ih _ => exact ih.opened _ ht

theorem Built.holds {points : Sym2 ρ} (h : K.Built (.shared points)) : ∃ x ∈ points, K.holds x := by
  cases h with
  | shared hx hheld => exact ⟨_, hx, hheld⟩

theorem Built.hashed {domain : δ} (h : K.Built (.digest domain text)) : ∀ t ∈ text, K.Built t := by
  cases h with
  | digest ht => exact ht

theorem Built.signer {key : κ} {domain : δ} (h : K.Built (.signature key domain text)) :
    K.signs key domain ∨ K.made key domain text := by
  cases h with
  | sign hsign => exact .inl hsign
  | made hmade => exact .inr hmade

/-- Who sealed a ciphertext: the attacker with a key it has, somebody at its wish, or somebody else. -/
theorem Built.sealer (h : K.Built (.cipher key nonce associated plaintext)) :
    (∀ t ∈ key, K.Built t) ∨ K.seals key nonce associated ∨ K.sent key nonce associated plaintext := by
  cases h with
  | sent hsent _ => exact .inr (.inr hsent)
  | seals hseals _ => exact .inr (.inl hseals)
  | encrypt hkey _ => exact .inl hkey

end Knowledge
