import AfroLink.Crypto.Basic
import AfroLink.Primitives.Decode

/-!
# Reading hashes, keys and addresses

Each is an array of fixed length. A public key is read without the check that it is a point of the curve.
-/

namespace AfroLink

instance : Decode Hash32 := ⟨decodeBe 32 _⟩
instance : Decode Address := ⟨decodeBe 20 _⟩

instance : Decode PublicKey where
  decode := do
    let bytes ← decodeBe 32 _
    return ⟨bytes⟩

instance : Decode Signature where
  decode := do
    let bytes ← decodeBe 64 _
    return ⟨bytes⟩

instance : RoundTrip Hash32 := ⟨fun _ => true, fun v _ => decodeBe_reads (by decide) v⟩
instance : RoundTrip Address := ⟨fun _ => true, fun v _ => decodeBe_reads (by decide) v⟩
instance : RoundTrip PublicKey := ⟨fun _ => true, fun v _ => (decodeBe_reads (by decide) v.bytes).last⟩
theorem bits_fit {n w : ℕ} (h : n = 8 * w) : 2 ^ n ≤ 256 ^ w := by
  subst h
  exact (Nat.pow_mul 2 8 w).le

instance : RoundTrip Signature where
  readable _ := true
  reads v _ := (decodeBe_reads (bits_fit (by decide)) v.bytes).last

end AfroLink
