import AfroLink.Primitives.Basic

/-!
# The canonical codec, encoding side

Little-endian fixed-width integers, a `u32` length before variable-length data, one
discriminant byte before an enum's fields.
-/

namespace AfroLink

abbrev Bytes := List U8

def MAX_FIELD_LEN : Nat := 16 * 1024 * 1024

def leBytes : Nat → Nat → Bytes
  | 0, _ => []
  | w + 1, n => Fin.ofNat _ n :: leBytes w (n / 256)

def beBytes (w n : Nat) : Bytes := (leBytes w n).reverse

def utf8Bytes (s : String) : Bytes := s.toUTF8.data.toList.map fun b => ⟨b.toNat, b.toNat_lt⟩

class Encode (α : Type) where
  encode : α → Bytes

export Encode (encode)

variable {α β : Type} [Encode α] [Encode β]

instance : Encode U8 := ⟨fun n => leBytes 1 n.val⟩
instance : Encode U16 := ⟨fun n => leBytes 2 n.val⟩
instance : Encode U32 := ⟨fun n => leBytes 4 n.val⟩
instance : Encode U64 := ⟨fun n => leBytes 8 n.val⟩
instance : Encode U128 := ⟨fun n => leBytes 16 n.val⟩
instance : Encode Bool := ⟨fun b => [if b then 1 else 0]⟩

def encodeLen (n : Nat) : Bytes := leBytes 4 n

def encodeBytes (bytes : Bytes) : Bytes := encodeLen bytes.length ++ bytes

instance : Encode String := ⟨fun s => encodeBytes (utf8Bytes s)⟩

instance : Encode (Option α) where
  encode
    | none => [0]
    | some v => 1 :: encode v

instance : Encode (List α) := ⟨fun l => encodeLen l.length ++ l.flatMap encode⟩

instance : Encode (α × β) := ⟨fun p => encode p.1 ++ encode p.2⟩

instance : Encode ChainId := ⟨fun c => encode c.asStr⟩
instance : Encode Denom := ⟨fun d => encode d.asStr⟩
instance : Encode CountryCode := ⟨fun c => [c.bytes.1, c.bytes.2]⟩

end AfroLink
