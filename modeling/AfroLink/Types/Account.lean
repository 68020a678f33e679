import AfroLink.Types.Group

/-!
# Account records

Who owns an address, which keys may sign for it, and what the decoder refuses when the
record is read back from state.
-/

namespace AfroLink

/-! ## Flags -/

inductive AccountFlag where
  | requireReference | masterKeyDisabled
deriving DecidableEq

def AccountFlag.bit : AccountFlag → U32
  | requireReference => 1
  | masterKeyDisabled => 2

/-- The two bits a flag word may carry; `from_bits` refuses every other one. -/
structure AccountFlags where
  requireReference : Bool := false
  masterKeyDisabled : Bool := false
deriving DecidableEq

namespace AccountFlags

def NONE : AccountFlags := {}

def isSet (f : AccountFlags) : AccountFlag → Bool
  | .requireReference => f.requireReference
  | .masterKeyDisabled => f.masterKeyDisabled

def set (f : AccountFlags) (flag : AccountFlag) (enabled : Bool) : AccountFlags :=
  match flag with
  | .requireReference => { f with requireReference := enabled }
  | .masterKeyDisabled => { f with masterKeyDisabled := enabled }

end AccountFlags

/-! ## Signer lists -/

def MAX_SIGNERS : Nat := 32

inductive AuthorityError where
  | noSigners
  | tooManySigners (n : Nat)
  | unsortedOrRepeatedSigners
  | zeroWeight
  | zeroQuorum
  | unreachableQuorum (quorum total : Nat)
deriving DecidableEq, Repr

structure Signer where
  key : PublicKey
  weight : U32
deriving DecidableEq

def SignerList.violation (signers : List Signer) (quorum : U32) : Option AuthorityError :=
  let total := (signers.map fun s => s.weight.val).sum
  if signers = [] then some .noSigners
  else if signers.length > MAX_SIGNERS then some (.tooManySigners signers.length)
  else if ¬ signers.IsChain (fun a b => a.key.bytes < b.key.bytes) then some .unsortedOrRepeatedSigners
  else if signers.any (fun s => s.weight == 0) then some .zeroWeight
  else if quorum = 0 then some .zeroQuorum
  else if quorum.val > total then some (.unreachableQuorum quorum.val total)
  else none

structure SignerList where
  signers : List Signer
  quorum : U32
  wf : SignerList.violation signers quorum = none
deriving DecidableEq

namespace SignerList

def fromSorted (signers : List Signer) (quorum : U32) : Except AuthorityError SignerList :=
  match h : violation signers quorum with
  | none => .ok ⟨signers, quorum, h⟩
  | some e => .error e

def weightOf (l : SignerList) (key : PublicKey) : Option U32 :=
  (l.signers.find? (·.key == key)).map (·.weight)

/-- The weight gathered by `keys`, or `none` at the first key not on the list. -/
def gather (l : SignerList) : List PublicKey → U64 → Option U64
  | [], gathered => some gathered
  | key :: keys, gathered =>
    match l.weightOf key with
    | some weight => gather l keys (gathered.saturatingAdd (u32To64 weight))
    | none => none

def satisfiedBy (l : SignerList) (keys : List PublicKey) : Bool :=
  match l.gather keys 0 with
  | some gathered => u32To64 l.quorum ≤ gathered
  | none => false

end SignerList

/-! ## Accounts -/

inductive RequiresReference where
  | yes | no
deriving DecidableEq

inductive AccountKind where
  | individual (publicKey : Option PublicKey)
  | group (g : GroupAccount)
  | module (name : String)
deriving DecidableEq

structure TxPointer where
  txId : Hash32
  height : Height
deriving DecidableEq

structure Account where
  address : Address
  nonce : U64
  kind : AccountKind
  lastTxn : Option TxPointer
  flags : AccountFlags
  regularKey : Option PublicKey
  signers : Option SignerList
deriving DecidableEq

namespace Account

def ofKind (address : Address) (kind : AccountKind) : Account :=
  { address, nonce := 0, kind, lastTxn := none, flags := .NONE, regularKey := none, signers := none }

def individual (address : Address) : Account := ofKind address (.individual none)
def group (address : Address) (g : GroupAccount) : Account := ofKind address (.group g)
def module (address : Address) (name : String) : Account := ofKind address (.module name)

def asGroup (a : Account) : Option GroupAccount :=
  match a.kind with
  | .group g => some g
  | _ => none

def canSign (a : Account) : Bool :=
  match a.kind with
  | .module _ => false
  | _ => true

def incrementNonce (a : Account) : Account := { a with nonce := a.nonce.saturatingAdd 1 }

def requiresReference (a : Account) : RequiresReference :=
  if a.flags.isSet .requireReference then .yes else .no

def hasAUsableAuthority (a : Account) : Bool :=
  !a.flags.isSet .masterKeyDisabled || a.regularKey.isSome || a.signers.isSome

variable [Crypto]

def withKey (publicKey : PublicKey) : Account :=
  ofKind (Address.fromPublicKey publicKey) (.individual (some publicKey))

def masterKeyMaySign (a : Account) (key : PublicKey) : Bool :=
  !a.flags.isSet .masterKeyDisabled && Address.fromPublicKey key == a.address

/-- The three authorities: master key, regular key, signer list. They do not mix. -/
def authorises (a : Account) (keys : List PublicKey) : Bool :=
  if !a.canSign then false
  else
    let single := match keys with
      | [only] => a.masterKeyMaySign only || a.regularKey == some only
      | _ => false
    single || a.signers.any fun list => !keys.isEmpty && list.satisfiedBy keys

end Account

/-! ## What the decoder refuses

`decodeError v` is the reason the decoder gives for the canonical bytes of `v`, or `none`
when they decode. -/

def firstError : List (Option String) → Option String
  | [] => none
  | some e :: _ => some e
  | none :: rest => firstError rest

def refuse (c : Prop) [Decidable c] (reason : String) : Option String := if c then some reason else none

def tooLong {α : Type} (l : List α) : Option String :=
  refuse (l.length > MAX_FIELD_LEN)
    ("length prefix " ++ toString l.length ++ " exceeds maximum " ++ toString MAX_FIELD_LEN)

def Loan.decodeError (l : Loan) : Option String :=
  firstError [
    tooLong l.guarantors,
    refuse (2 ^ 128 ≤ l.principal.val + l.serviceCharge.val) "invalid value: loan total overflows",
    refuse (l.repaid.val > l.principal.val + l.serviceCharge.val)
      "invalid value: a loan repaid beyond what it was worth",
    refuse (l.guarantors.length ≥ MAX_GROUP_MEMBERS) "invalid value: more guarantors than a group can hold"]

def GroupError.shareRuleText : GroupError → String
  | .invalidShareRules rule => "invalid share rules: " ++ rule
  | _ => ""

def PayoutPolicy.decodeError : PayoutPolicy → Option String
  | .rotation order _ => tooLong order
  | .accumulate rules =>
    match rules.validate with
    | .ok _ => none
    | .error e => some ("invalid value: " ++ e.shareRuleText)

def GroupProposal.decodeError (p : GroupProposal) : Option String :=
  firstError [
    match p.kind with
    | .loan _ guarantors => tooLong guarantors
    | .socialGrant _ => none,
    tooLong p.approvals,
    refuse (¬ p.approvals.IsChain (· < ·)) "invalid value: proposal approvals must be sorted and unique",
    refuse (p.approvals.length > MAX_GROUP_MEMBERS) "invalid value: more approvals than a group can hold"]

def GroupAccount.decodeError (g : GroupAccount) : Option String :=
  firstError [
    tooLong (utf8Bytes g.name),
    tooLong g.members,
    firstError (g.members.map fun m => m.loan.bind Loan.decodeError),
    g.policy.decodeError,
    g.pending.bind GroupProposal.decodeError,
    refuse (g.members.length > MAX_GROUP_MEMBERS)
      ("invalid value: a group may hold at most 100 members, got " ++ toString g.members.length),
    refuse (g.roundStartCycle > g.cycle) "invalid value: a round starting after the current cycle"]

def AccountKind.decodeError : AccountKind → Option String
  | .individual _ => none
  | .group g => g.decodeError
  | .module name => tooLong (utf8Bytes name)

def Account.decodeError (a : Account) : Option String :=
  firstError [
    a.kind.decodeError,
    refuse (!a.hasAUsableAuthority) "invalid value: account record has no key that could sign for it"]

end AfroLink
