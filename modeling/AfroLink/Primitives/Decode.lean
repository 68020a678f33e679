import AfroLink.Base.Reader
import AfroLink.Primitives.Codec

/-!
# The canonical codec, decoding side

A decoder takes a value off the front of the input. `RoundTrip α` says which values of `α` it accepts back, and that it
takes their encoding and nothing else.
-/

namespace AfroLink

inductive CodecError where
  | unexpectedEof (wanted left : Nat)
  | lengthTooLarge (len : Nat)
  | unknownDiscriminant (tag : U8) (typeName : String)
  | trailingBytes (left : Nat)
  | invalid (reason : String)
deriving DecidableEq, Repr

def CodecError.text : CodecError → String
  | unexpectedEof wanted left =>
    "unexpected end of input: wanted " ++ toString wanted ++ " more byte(s), " ++ toString left ++ " left"
  | lengthTooLarge len => "length prefix " ++ toString len ++ " exceeds maximum " ++ toString MAX_FIELD_LEN
  | unknownDiscriminant tag typeName => "unknown discriminant " ++ toString tag.val ++ " for " ++ typeName
  | trailingBytes left => toString left ++ " trailing byte(s) after value"
  | invalid reason => "invalid value: " ++ reason

def PrimError.text : PrimError → String
  | invalidDenom denom reason => "invalid denom " ++ denom.quote ++ ": " ++ reason
  | invalidChainId id reason => "invalid chain id " ++ id.quote ++ ": " ++ reason
  | overflow op => "arithmetic overflow in " ++ op
  | invalid what => "invalid input to " ++ what

abbrev Decoder (α : Type) := Reader U8 CodecError α

class Decode (α : Type) where
  decode : Decoder α

export Decode (decode)

/-- Decode a value and require that the whole input was consumed. -/
def decodeExact {α : Type} [Decode α] (bytes : Bytes) : Except CodecError α :=
  match (decode : Decoder α).run bytes with
  | .ok (v, []) => .ok v
  | .ok (_, left) => .error (.trailingBytes left.length)
  | .error e => .error e

/-- What the decoder of `α` accepts back. -/
class RoundTrip (α : Type) [Encode α] [Decode α] where
  readable : α → Bool
  reads : ∀ v, readable v = true → Reads (decode : Decoder α) (encode v) v

export RoundTrip (readable reads)

section

variable {α β : Type} [Encode α] [Decode α] [RoundTrip α] [Encode β] [Decode β] [RoundTrip β]

theorem decodeExact_encode {v : α} (h : readable v = true) : decodeExact (encode v) = .ok v := by
  unfold decodeExact
  rw [(reads v h).run]

theorem encode_inj {v w : α} (hv : readable v = true) (hw : readable w = true) (h : encode v = encode w) : v = w :=
  (reads v hv).unique (h ▸ reads w hw)

end

/-! ## Bytes and words -/

def take (n : Nat) : Decoder Bytes := fun buf =>
  if buf.length < n then .error (.unexpectedEof n buf.length) else .ok (buf.take n, buf.drop n)

theorem take_reads (x : Bytes) : Reads (take x.length) x x := by
  intro rest
  show take x.length (x ++ rest) = _
  simp [take]

def fromLe : Bytes → Nat
  | [] => 0
  | b :: rest => b.val + 256 * fromLe rest

def fromBe (bytes : Bytes) : Nat := fromLe bytes.reverse

theorem length_leBytes (w n : Nat) : (leBytes w n).length = w := by
  induction w generalizing n with
  | zero => rfl
  | succ w ih => simp [leBytes, ih]

theorem length_beBytes (w n : Nat) : (beBytes w n).length = w := by simp [beBytes, length_leBytes]

theorem fromLe_leBytes {w n : Nat} (h : n < 256 ^ w) : fromLe (leBytes w n) = n := by
  induction w generalizing n with
  | zero =>
    have : n = 0 := by simpa using h
    rw [this]
    rfl
  | succ w ih =>
    have hdiv : n / 256 < 256 ^ w := Nat.div_lt_of_lt_mul (by rwa [Nat.pow_succ, Nat.mul_comm] at h)
    have hmod : (Fin.ofNat (2 ^ 8) n).val = n % 256 := rfl
    rw [leBytes, fromLe, ih hdiv, hmod]
    omega

def decodeLe (w n : Nat) [NeZero n] : Decoder (Fin n) := do
  let bytes ← take w
  return Fin.ofNat n (fromLe bytes)

def decodeBe (w n : Nat) [NeZero n] : Decoder (Fin n) := do
  let bytes ← take w
  return Fin.ofNat n (fromBe bytes)

theorem decodeLe_reads {w n : Nat} [NeZero n] (h : n ≤ 256 ^ w) (x : Fin n) :
    Reads (decodeLe w n) (leBytes w x.val) x := by
  have hbytes := take_reads (leBytes w x.val)
  rw [length_leBytes] at hbytes
  have hval : Fin.ofNat n (fromLe (leBytes w x.val)) = x := by
    rw [fromLe_leBytes (x.isLt.trans_le h)]
    exact Fin.ofNat_val_eq_self x
  have hread : Reads (decodeLe w n) (leBytes w x.val) (Fin.ofNat n (fromLe (leBytes w x.val))) := hbytes.last
  rwa [hval] at hread

theorem decodeBe_reads {w n : Nat} [NeZero n] (h : n ≤ 256 ^ w) (x : Fin n) :
    Reads (decodeBe w n) (beBytes w x.val) x := by
  have hbytes := take_reads (beBytes w x.val)
  rw [length_beBytes] at hbytes
  have hval : Fin.ofNat n (fromBe (beBytes w x.val)) = x := by
    rw [fromBe, beBytes, List.reverse_reverse, fromLe_leBytes (x.isLt.trans_le h)]
    exact Fin.ofNat_val_eq_self x
  have hread : Reads (decodeBe w n) (beBytes w x.val) (Fin.ofNat n (fromBe (beBytes w x.val))) := hbytes.last
  rwa [hval] at hread

instance : Decode U8 := ⟨decodeLe 1 _⟩
instance : Decode U16 := ⟨decodeLe 2 _⟩
instance : Decode U32 := ⟨decodeLe 4 _⟩
instance : Decode U64 := ⟨decodeLe 8 _⟩
instance : Decode U128 := ⟨decodeLe 16 _⟩

instance : RoundTrip U8 := ⟨fun _ => true, fun v _ => decodeLe_reads (by decide) v⟩
instance : RoundTrip U16 := ⟨fun _ => true, fun v _ => decodeLe_reads (by decide) v⟩
instance : RoundTrip U32 := ⟨fun _ => true, fun v _ => decodeLe_reads (by decide) v⟩
instance : RoundTrip U64 := ⟨fun _ => true, fun v _ => decodeLe_reads (by decide) v⟩
instance : RoundTrip U128 := ⟨fun _ => true, fun v _ => decodeLe_reads (by decide) v⟩

theorem tag_reads (t : U8) : Reads (decode : Decoder U8) [t] t := by
  have h := reads t rfl
  have hbyte : encode t = [t] := by
    show [Fin.ofNat _ t.val] = [t]
    rw [Fin.ofNat_val_eq_self]
  rwa [hbyte] at h

instance : Decode Bool where
  decode := do
    let tag ← (decode : Decoder U8)
    match tag.val with
    | 0 => return false
    | 1 => return true
    | _ => throw (.unknownDiscriminant tag "bool")

instance : RoundTrip Bool where
  readable _ := true
  reads
    | false, _ => (tag_reads 0).cons (.pure false)
    | true, _ => (tag_reads 1).cons (.pure true)

/-! ## Variable length -/

/-- Read a length prefix, rejecting absurd values before allocating. -/
def takeLen : Decoder Nat := do
  let len ← (decode : Decoder U32)
  if len.val > MAX_FIELD_LEN then throw (.lengthTooLarge len.val)
  return len.val

theorem takeLen_reads {n : Nat} (h : n ≤ MAX_FIELD_LEN) : Reads takeLen (encodeLen n) n := by
  have hn : n < 2 ^ 32 := h.trans_lt (by decide)
  have hlen : Reads (decode : Decoder U32) (encodeLen n ++ []) ⟨n, hn⟩ := by
    rw [List.append_nil]
    exact reads (⟨n, hn⟩ : U32) rfl
  exact (hlen.bind (.guard (not_lt.2 h) (.pure n))).cast (by simp)

def decodeBytes : Decoder Bytes := do
  let len ← takeLen
  take len

theorem decodeBytes_reads {x : Bytes} (h : x.length ≤ MAX_FIELD_LEN) : Reads decodeBytes (encodeBytes x) x :=
  (takeLen_reads h).bind (take_reads x)

def fromUtf8 (bytes : Bytes) : Option String :=
  String.fromUTF8? ⟨(bytes.map fun b => UInt8.ofNat b.val).toArray⟩

theorem fromUtf8_utf8Bytes (s : String) : fromUtf8 (utf8Bytes s) = some s := by
  have hbytes : (utf8Bytes s).map (fun b => UInt8.ofNat b.val) = s.toByteArray.data.toList := by
    simp [utf8Bytes, Function.comp_def]
  unfold fromUtf8
  rw [hbytes]
  unfold String.fromUTF8?
  rw [dif_pos s.isValidUTF8]
  rfl

@[simp] theorem utf8Bytes_inj {s t : String} : utf8Bytes s = utf8Bytes t ↔ s = t := by
  refine ⟨fun h => Option.some.inj ?_, congrArg _⟩
  rw [← fromUtf8_utf8Bytes, h, fromUtf8_utf8Bytes]

instance : Decode String where
  decode := do
    let bytes ← decodeBytes
    match fromUtf8 bytes with
    | some s => return s
    | none => throw (.invalid "non-utf8 string")

instance : RoundTrip String where
  readable s := (utf8Bytes s).length ≤ MAX_FIELD_LEN
  reads s h := by
    have hread := decodeBytes_reads (of_decide_eq_true h)
    refine ((hread.bind ?_).cast (List.append_nil _) : Reads _ (encodeBytes (utf8Bytes s)) s)
    rw [fromUtf8_utf8Bytes]
    exact .pure s

section

variable {α β : Type} [Encode α] [Decode α] [RoundTrip α] [Encode β] [Decode β] [RoundTrip β]

instance : Decode (Option α) where
  decode := do
    let tag ← (decode : Decoder U8)
    match tag.val with
    | 0 => return none
    | 1 =>
      let v ← decode
      return some v
    | _ => throw (.unknownDiscriminant tag "Option")

instance : RoundTrip (Option α) where
  readable v := v.all readable
  reads
    | none, _ => (tag_reads 0).cons (.pure none)
    | some v, h => (tag_reads 1).cons (reads v h).last

instance : Decode (List α) where
  decode := do
    let len ← takeLen
    readMany decode len

instance : RoundTrip (List α) where
  readable l := decide (l.length ≤ MAX_FIELD_LEN) && l.all readable
  reads l h := by
    obtain ⟨hlen, hall⟩ := (Bool.and_eq_true _ _).mp h
    exact (takeLen_reads (of_decide_eq_true hlen)).bind (.many fun a ha => reads a (List.all_eq_true.1 hall a ha))

instance : Decode (α × β) where
  decode := do
    let a ← decode
    let b ← decode
    return (a, b)

instance : RoundTrip (α × β) where
  readable p := readable p.1 && readable p.2
  reads p h := by
    obtain ⟨ha, hb⟩ := (Bool.and_eq_true _ _).mp h
    exact (reads p.1 ha).bind (reads p.2 hb).last

end

/-! ## Validated strings -/

def checked {ε α : Type} (text : ε → String) : Except ε α → Decoder α
  | .ok a => pure a
  | .error e => throw (.invalid (text e))

theorem checked_reads {ε α : Type} {text : ε → String} {r : Except ε α} {a : α} (h : r = .ok a) :
    Reads (checked text r) [] a := by
  rw [h]
  exact .pure a

theorem utf8Bytes_length (s : String) : (utf8Bytes s).length = s.utf8ByteSize := by simp [utf8Bytes]

theorem Denom.new_asStr (d : Denom) : Denom.new d.asStr = .ok d := by
  unfold Denom.new
  split
  · rfl
  · rename_i reason h
    cases d.wf.symm.trans h

theorem Denom.readable_asStr (d : Denom) : readable d.asStr = true := by
  have hwf := d.wf
  unfold violation at hwf
  split_ifs at hwf with _ hlong
  refine decide_eq_true ?_
  rw [utf8Bytes_length]
  exact (not_lt.1 hlong).trans (by decide)

instance : Decode Denom where
  decode := do
    let s ← decode
    checked PrimError.text (Denom.new s)

instance : RoundTrip Denom where
  readable _ := true
  reads d _ := ((reads d.asStr d.readable_asStr).bind (checked_reads d.new_asStr)).cast (List.append_nil _)

theorem ChainId.new_asStr (c : ChainId) : ChainId.new c.asStr = .ok c := by
  unfold ChainId.new
  split
  · rfl
  · rename_i reason h
    cases c.wf.symm.trans h

theorem ChainId.readable_asStr (c : ChainId) : readable c.asStr = true := by
  have hwf := c.wf
  unfold violation at hwf
  split_ifs at hwf with _ hlong
  refine decide_eq_true ?_
  rw [utf8Bytes_length]
  exact (not_lt.1 hlong).trans (by decide)

instance : Decode ChainId where
  decode := do
    let s ← decode
    checked PrimError.text (ChainId.new s)

instance : RoundTrip ChainId where
  readable _ := true
  reads c _ := ((reads c.asStr c.readable_asStr).bind (checked_reads c.new_asStr)).cast (List.append_nil _)

instance : Decode CountryCode where
  decode := do
    let a ← (decode : Decoder U8)
    let b ← (decode : Decoder U8)
    if h : (97 ≤ a.val ∧ a.val ≤ 122) ∧ (97 ≤ b.val ∧ b.val ≤ 122) then return ⟨(a, b), h⟩
    else throw (.invalid "country code must be two lowercase ASCII letters")

instance : RoundTrip CountryCode where
  readable _ := true
  reads c _ := by
    refine (tag_reads c.bytes.1).cons ((tag_reads c.bytes.2).cons ?_)
    rw [dif_pos c.lower]
    exact .pure c

end AfroLink
