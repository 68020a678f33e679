import AfroLink.Crypto.Basic

/-!
# A sample instance of the primitives

Small enough to evaluate, for running the model on concrete inputs: a polynomial digest, and signatures that
spell out the key and the message they were made with.
-/

namespace AfroLink.Sample

/-- Horner's rule modulo `2 ^ 256`, with a multiplier that spreads every byte over the whole word. -/
def digest (bytes : Bytes) : Hash32 :=
  bytes.foldl (fun acc b => (acc + Fin.ofNat (2 ^ 256) (b.val + 1)) *
    0x9E3779B97F4A7C15F39CC0605CEDC8341082276BF3A27251F86C6A11D0C18E95) 1

theorem pair_lt {a b : Nat} (ha : a < 2 ^ 256) (hb : b < 2 ^ 256) : a * 2 ^ 256 + b < 2 ^ 512 := by
  have : a * 2 ^ 256 + b < 2 ^ 256 * 2 ^ 256 := by omega
  rwa [← Nat.pow_add] at this

def signature (key : Fin (2 ^ 256)) (message : Bytes) : Signature :=
  ⟨⟨key.val * 2 ^ 256 + (digest message).val, pair_lt key.isLt (digest message).isLt⟩⟩

scoped instance : Crypto where
  blake3 := digest
  verifyingKey sk := ⟨sk.bytes⟩
  sign sk message := signature sk.bytes message
  verifyStrict pk message sig := decide (sig = signature pk.bytes message)

theorem sign_verifies (sk : SecretKey) (domain : Domain) (message : Bytes) :
    sk.publicKey.verify domain message (sk.sign domain message) = true := by
  simp [SecretKey.publicKey, SecretKey.sign, PublicKey.verify, Crypto.verifyStrict, Crypto.sign, Crypto.verifyingKey]

def key (n : Nat) : SecretKey := ⟨Fin.ofNat (2 ^ 256) (n + 1)⟩

def addressOf (n : Nat) : Address := Address.fromPublicKey (key n).publicKey

def chain : ChainId := ⟨"afrolink-1", by decide⟩

end AfroLink.Sample

namespace AfroLink.Tagged

/-- The sample digest behind the first byte of the input, the length of the domain's name. -/
def digest (bytes : Bytes) : Hash32 :=
  ⟨(bytes.headD 0).val * 2 ^ 248 + (Sample.digest bytes).val % 2 ^ 248, by
    have hhead := (bytes.headD 0).isLt
    have hrest := Nat.mod_lt (Sample.digest bytes).val (show 0 < 2 ^ 248 by decide)
    omega⟩

theorem digest_val (bytes : Bytes) :
    (digest bytes).val = (bytes.headD 0).val * 2 ^ 248 + (Sample.digest bytes).val % 2 ^ 248 := rfl

scoped instance : Crypto where
  blake3 := digest
  verifyingKey sk := ⟨sk.bytes⟩
  sign sk message := Sample.signature sk.bytes message
  verifyStrict pk message sig := decide (sig = Sample.signature pk.bytes message)

/-- Addresses begin with the byte the digest begins with, so that domains of different length do not meet. -/
theorem derived_head (domain : Domain) (seed : Bytes) :
    (Address.derived domain seed).val / 2 ^ 152 = ((absorbDomain domain ++ seed).headD 0).val := by
  have hdigest : (Address.derived domain seed).val / 2 ^ 152 =
      (digest (absorbDomain domain ++ seed)).val / (2 ^ 96 * 2 ^ 152) := by
    rw [← Nat.div_div_eq_div_mul]
    rfl
  have hrest := Nat.mod_lt (Sample.digest (absorbDomain domain ++ seed)).val (show 0 < 2 ^ 248 by decide)
  rw [hdigest, digest_val, ← Nat.pow_add]
  omega

end AfroLink.Tagged
