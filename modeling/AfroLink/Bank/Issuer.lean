import AfroLink.Types.Account

/-!
# Issuers of a denomination

The authority configures, minters issue up to an allowance, a freezer freezes. Lookups are
binary searches in a list the decoder keeps strictly sorted.
-/

namespace AfroLink

def MAX_MINTERS : Nat := 16

structure Minter where
  address : Address
  allowance : Amount
deriving DecidableEq

inductive IssuerError where
  | tooManyMinters
  | capWouldRise
  | notPendingAuthority (account : Address)
  | authorityUnchanged
deriving DecidableEq, Repr

structure Issuer where
  authority : Address
  minters : List Minter
  freezer : Option Address
  maxSupply : Option Amount
  pendingAuthority : Option Address
  paused : Bool
deriving DecidableEq

namespace Issuer

def new (authority : Address) : Issuer :=
  { authority, minters := [], freezer := none, maxSupply := none, pendingAuthority := none, paused := false }

def isAuthority (i : Issuer) (account : Address) : Bool := i.authority == account

def mayFreeze (i : Issuer) (account : Address) : Bool :=
  match i.freezer with
  | some f => f == account
  | none => i.isAuthority account

def minter (i : Issuer) (address : Address) : Option Minter := i.minters.find? (·.address == address)

def allowanceOf (i : Issuer) (address : Address) : Amount :=
  match i.minter address with
  | some m => m.allowance
  | none => 0

/-- Set the allowance of the minter at `address`, dropping it at zero. -/
def writeAllowance (i : Issuer) (address : Address) (allowance : Amount) : Issuer :=
  { i with minters :=
      if allowance.isZero then i.minters.filter (·.address != address)
      else i.minters.map fun m => if m.address = address then { m with allowance } else m }

def setMinter (i : Issuer) (address : Address) (allowance : Amount) : Except IssuerError Issuer :=
  match i.minter address with
  | some _ => .ok (i.writeAllowance address allowance)
  | none =>
    if allowance.isZero then .ok i
    else if i.minters.length ≥ MAX_MINTERS then .error .tooManyMinters
    else .ok { i with minters := i.minters.orderedInsert (fun a b => a.address ≤ b.address) { address, allowance } }

def spendAllowance (i : Issuer) (address : Address) (amount : Amount) : Option Issuer :=
  match i.minter address with
  | none => none
  | some m =>
    match m.allowance.checkedSub amount with
    | .error _ => none
    | .ok remaining => some (i.writeAllowance address remaining)

def offerAuthority (i : Issuer) (dst : Option Address) : Except IssuerError Issuer :=
  if dst = some i.authority then .error .authorityUnchanged
  else .ok { i with pendingAuthority := dst }

def acceptAuthority (i : Issuer) (caller : Address) : Except IssuerError Issuer :=
  if i.pendingAuthority ≠ some caller then .error (.notPendingAuthority caller)
  else .ok { i with authority := caller, pendingAuthority := none }

def tightenCap (i : Issuer) (cap : Amount) : Except IssuerError Issuer :=
  if i.maxSupply.any fun current => cap > current then .error .capWouldRise
  else .ok { i with maxSupply := some cap }

def decodeError (i : Issuer) : Option String :=
  firstError [
    tooLong i.minters,
    refuse (i.minters.length > MAX_MINTERS)
      ("invalid value: a denomination may have at most 16 minters, got " ++ toString i.minters.length),
    refuse (i.pendingAuthority = some i.authority)
      "invalid value: an offer of the authority to the account already holding it is a second spelling of no offer at all",
    refuse (¬ i.minters.IsChain fun a b => a.address < b.address)
      "invalid value: issuer minters must be sorted by address and unique",
    refuse (i.minters.any (·.allowance.isZero))
      "invalid value: an issuer minter must have a non-zero allowance"]

end Issuer

end AfroLink
