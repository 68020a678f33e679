import AfroLink.Base.Word

/-!
# Primitive types

Amounts, heights, rounds, chain ids, denominations and country codes. A validated
string is a structure carrying the check it passed, so an unvalidated one cannot be built.
-/

namespace AfroLink

/-- Errors of the primitive types that a modelled function can return. -/
inductive PrimError where
  | invalidDenom (denom reason : String)
  | invalidChainId (id reason : String)
  | overflow (op : String)
  | invalid (what : String)
deriving DecidableEq, Repr

/-! ## Heights, rounds, times -/

abbrev Height := U64
abbrev Round := U32
abbrev Timestamp := U64

def Height.next (h : Height) : Height := Fin.saturatingAdd h 1
def Round.next (r : Round) : Round := Fin.saturatingAdd r 1

/-! ## Amounts -/

abbrev Amount := U128

namespace Amount

def AFRI_DECIMALS : Nat := 9
def SENTE_PER_AFRI : Nat := 1000000000

def units (a : Amount) : Nat := a.val

def isZero (a : Amount) : Bool := a.val == 0

def checkedAdd (a b : Amount) : Except PrimError Amount :=
  match Fin.checkedAdd a b with
  | some c => .ok c
  | none => .error (.overflow "Amount::add")

def checkedSub (a b : Amount) : Except PrimError Amount :=
  match Fin.checkedSub a b with
  | some c => .ok c
  | none => .error (.overflow "Amount::sub")

def checkedMul (a : Amount) (scalar : U128) : Except PrimError Amount :=
  match Fin.checkedMul a scalar with
  | some c => .ok c
  | none => .error (.overflow "Amount::mul")

/-- `a * numer / denom`, truncated, computed as `q*numer + (r*numer)/denom`. -/
def mulRatio (a : Amount) (numer denom : U128) : Except PrimError Amount :=
  if denom.val = 0 then .error (.overflow "Amount::mul_ratio/zero-denominator")
  else
    let q : U128 := ⟨a.val / denom.val, Nat.lt_of_le_of_lt (Nat.div_le_self _ _) a.isLt⟩
    let r : U128 := ⟨a.val % denom.val, Nat.lt_of_le_of_lt (Nat.mod_le _ _) a.isLt⟩
    match Fin.checkedMul q numer, Fin.checkedMul r numer with
    | some lhs, some rn =>
      let rhs : U128 := ⟨rn.val / denom.val, Nat.lt_of_le_of_lt (Nat.div_le_self _ _) rn.isLt⟩
      match Fin.checkedAdd lhs rhs with
      | some c => .ok c
      | none => .error (.overflow "Amount::mul_ratio")
    | _, _ => .error (.overflow "Amount::mul_ratio")

/-- The decimal rendering with trailing zeros trimmed, at least one digit after the point. -/
def display (a : Amount) : String :=
  let whole := a.val / SENTE_PER_AFRI
  let digits := Nat.toDigits 10 (a.val % SENTE_PER_AFRI)
  let padded := List.replicate (AFRI_DECIMALS - digits.length) '0' ++ digits
  let trimmed := (padded.reverse.dropWhile (· == '0')).reverse
  if trimmed.isEmpty then toString whole ++ ".0"
  else toString whole ++ "." ++ String.ofList trimmed

theorem checkedAdd_eq_ok {a b c : Amount} : a.checkedAdd b = .ok c ↔ c.val = a.val + b.val := by
  rw [← Fin.checkedAdd_eq_some]
  unfold checkedAdd
  cases Fin.checkedAdd a b <;> simp

theorem checkedSub_eq_ok {a b c : Amount} :
    a.checkedSub b = .ok c ↔ b.val ≤ a.val ∧ c.val = a.val - b.val := by
  rw [← Fin.checkedSub_eq_some]
  unfold checkedSub
  cases Fin.checkedSub a b <;> simp

theorem checkedMul_eq_ok {a c : Amount} {scalar : U128} :
    a.checkedMul scalar = .ok c ↔ c.val = a.val * scalar.val := by
  rw [← Fin.checkedMul_eq_some]
  unfold checkedMul
  cases Fin.checkedMul a scalar <;> simp

theorem mulRatio_eq_ok {a c : Amount} {numer denom : U128} (h : a.mulRatio numer denom = .ok c) :
    0 < denom.val ∧ c.val = a.val * numer.val / denom.val := by
  unfold mulRatio at h
  split_ifs at h with hd
  dsimp only at h
  split at h
  · rename_i lhs rn hl hr
    split at h
    · rename_i c' hc
      cases h
      have hl := Fin.checkedMul_eq_some.1 hl
      have hr := Fin.checkedMul_eq_some.1 hr
      have hc := Fin.checkedAdd_eq_some.1 hc
      dsimp only at hl hr hc
      refine ⟨Nat.pos_of_ne_zero hd, ?_⟩
      rw [hc, hl, hr]
      conv_rhs => rw [← Nat.div_add_mod a.val denom.val, Nat.add_mul, Nat.mul_assoc]
      rw [Nat.mul_add_div (Nat.pos_of_ne_zero hd)]
    · cases h
  · cases h

end Amount

/-! ## Validated strings -/

def isAsciiLowercase (c : Char) : Bool := 'a' ≤ c && c ≤ 'z'
def isAsciiDigit (c : Char) : Bool := '0' ≤ c && c ≤ '9'

def MIN_DENOM_LEN : Nat := 3
def MAX_DENOM_LEN : Nat := 128

def Denom.violation (s : String) : Option String :=
  if s.utf8ByteSize < MIN_DENOM_LEN then some "shorter than 3 bytes"
  else if s.utf8ByteSize > MAX_DENOM_LEN then some "longer than 128 bytes"
  else if !(s.toList.head?.any isAsciiLowercase) then
    some "must start with a lowercase ASCII letter"
  else if !(s.toList.all fun c => isAsciiLowercase c || isAsciiDigit c || c == '/' || c == '-' || c == '.') then
    some "may only contain [a-z0-9/.-]"
  else if ['/', '/'] <:+: s.toList ∨ s.toList.getLast? = some '/' then some "malformed path segments"
  else none

structure Denom where
  asStr : String
  wf : Denom.violation asStr = none
deriving DecidableEq

namespace Denom

def new (s : String) : Except PrimError Denom :=
  match h : violation s with
  | none => .ok ⟨s, h⟩
  | some reason => .error (.invalidDenom s reason)

def native : Denom := ⟨"afri", by decide⟩

def isNative (d : Denom) : Bool := d.asStr == "afri"
def isSovereign (d : Denom) : Bool := "sov/".toList.isPrefixOf d.asStr.toList
def isContract (d : Denom) : Bool := "cw/".toList.isPrefixOf d.asStr.toList

end Denom

def ChainId.MAX_LEN : Nat := 50

def ChainId.violation (s : String) : Option String :=
  if s.utf8ByteSize = 0 then some "must not be empty"
  else if s.utf8ByteSize > ChainId.MAX_LEN then some "longer than 50 bytes"
  else if !(s.toList.all fun c => isAsciiLowercase c || isAsciiDigit c || c == '-') then
    some "may only contain [a-z0-9-]"
  else none

structure ChainId where
  asStr : String
  wf : ChainId.violation asStr = none
deriving DecidableEq

def ChainId.new (s : String) : Except PrimError ChainId :=
  match h : ChainId.violation s with
  | none => .ok ⟨s, h⟩
  | some reason => .error (.invalidChainId s reason)

/-- An ISO 3166-1 alpha-2 code: two lowercase ASCII letters. -/
structure CountryCode where
  bytes : U8 × U8
  lower : (97 ≤ bytes.1.val ∧ bytes.1.val ≤ 122) ∧ (97 ≤ bytes.2.val ∧ bytes.2.val ≤ 122)
deriving DecidableEq

def CountryCode.UNSPECIFIED : CountryCode := ⟨(122, 122), by decide⟩

end AfroLink
