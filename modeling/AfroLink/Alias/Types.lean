import AfroLink.Types.Account

/-!
# Usernames, contacts and attestors

The record types of the naming layer. A `Username` carries the check it passed.
-/

namespace AfroLink

def MIN_NAME_LEN : Nat := 3
def MAX_NAME_LEN : Nat := 32

inductive NameError where
  | length (n : Nat)
  | charset (c : Char)
  | notAscii (c : Char)
  | edgeSeparator
  | doubleSeparator
  | reserved (name : String)
deriving DecidableEq, Repr

def RESERVED : List String :=
  ["afri", "afrolink", "sov", "admin", "root", "support", "official", "treasury", "validator", "genesis"]

def isSeparator (c : Char) : Bool := c == '-' || c == '_'

/-- The first character outside `[a-z0-9_-]`, as the error that names it. -/
def charError : List Char → Option NameError
  | [] => none
  | c :: rest =>
    if 128 ≤ c.toNat then some (.notAscii c)
    else if !(isAsciiLowercase c || isAsciiDigit c || isSeparator c) then some (.charset c)
    else charError rest

def Username.violation (lowered : String) : Option NameError :=
  let cs := lowered.toList
  if cs.length < MIN_NAME_LEN ∨ MAX_NAME_LEN < cs.length then some (.length cs.length)
  else if let some e := charError cs then some e
  else if cs.head?.any isSeparator || cs.getLast?.any isSeparator then some .edgeSeparator
  else if ¬ cs.IsChain (fun a b => !(isSeparator a && isSeparator b)) then some .doubleSeparator
  else if lowered ∈ RESERVED ∨ (cs.length = 2 ∧ cs.all isAsciiLowercase) then some (.reserved lowered)
  else none

structure Username where
  asStr : String
  wf : Username.violation asStr = none
deriving DecidableEq

namespace Username

/-- Lowercasing; the Kelvin sign is the one non-ASCII character that lowers into ASCII. -/
def lower (s : String) : String :=
  String.ofList (s.toList.map fun c => if c.toNat = 0x212A then 'k' else c.toLower)

def new (input : String) : Except NameError Username :=
  match h : violation (lower input) with
  | none => .ok ⟨lower input, h⟩
  | some e => .error e

def replaceDigraph (a b c : Char) : List Char → List Char
  | [] => []
  | [x] => [x]
  | x :: y :: rest =>
    if x = a ∧ y = b then c :: replaceDigraph a b c rest else x :: replaceDigraph a b c (y :: rest)

def fold (c : Char) : Char :=
  if c = '0' then 'o'
  else if c = '1' ∨ c = 'i' ∨ c = '!' ∨ c = '|' then 'l'
  else if c = '5' then 's'
  else if c = '2' then 'z'
  else if c = '8' then 'b'
  else c

/-- What a name looks like: digraphs, separators and lookalike characters folded together. -/
def skeleton (n : Username) : String :=
  let s := replaceDigraph 'r' 'n' 'm' n.asStr.toList
  let s := replaceDigraph 'v' 'v' 'w' s
  let s := replaceDigraph 'c' 'l' 'd' s
  let s := replaceDigraph 'n' 'n' 'm' s
  String.ofList ((s.filter fun c => !isSeparator c).map fold)

end Username

structure NameRecord where
  owner : Address
  registeredAt : Height
  expiresAt : Height
deriving DecidableEq

/-- Commitment to a phone number or an email address. -/
structure ContactCommitment where
  asHash : Hash32
deriving DecidableEq

structure PendingRebind where
  newAddress : Address
  issuer : Address
  effectiveAt : Height
deriving DecidableEq

structure ContactRecord where
  address : Address
  issuer : Address
  attestedAt : Height
  rebind : Option PendingRebind
deriving DecidableEq

structure Attestor where
  country : CountryCode
  name : String
  active : Bool
deriving DecidableEq

def Attestor.decodeError (a : Attestor) : Option String :=
  firstError [
    tooLong (utf8Bytes a.name),
    refuse (a.name.utf8ByteSize = 0 ∨ a.name.utf8ByteSize > 64)
      "invalid value: an attestor name must be 1..=64 bytes"]

instance : Encode Username := ⟨fun n => encode n.asStr⟩
instance : Encode ContactCommitment := ⟨fun c => encode c.asHash⟩
instance : Encode Attestor := ⟨fun a => encode a.country ++ encode a.name ++ encode a.active⟩

end AfroLink
