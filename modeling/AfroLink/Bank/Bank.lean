import AfroLink.State.Store

/-!
# The bank

Balances and supplies, one cell each; a zero is stored as an absent cell. Every operation
computes all new amounts before it writes any of them.
-/

namespace AfroLink

inductive BankError where
  | insufficientFunds (denom needed available : String)
  | zeroAmount
  | overflow (what : String)
  | notIssuer (denom : String)
  | notMinter (denom : String)
  | mintAllowanceExceeded (denom amount allowance : String)
  | notFreezer (denom : String)
  | issuer (e : IssuerError)
  | noIssuer (denom : String)
  | issuerExists (denom : String)
  | issuerPaused (denom : String)
  | supplyCapExceeded (denom amount : String)
  | accountFrozen (denom : String)
  | nativeNotIssuable
  | state (e : StateError)
deriving DecidableEq, Repr

namespace Bank

abbrev M (α : Type) := StoreM BankError α

/-! ## Reads -/

def balance (address : Address) (denom : Denom) : M Amount := do
  return (← getDecoded .state (.balance address denom)).getD 0

def totalSupply (denom : Denom) : M Amount := do
  return (← getDecoded .state (.supply denom)).getD 0

def isFrozen (address : Address) (denom : Denom) : M Bool := do
  return ((← get) (.frozen denom address)).isSome

def issuer (denom : Denom) : M (Option Issuer) := getDecoded .state (.issuer denom)

/-! ## Writes -/

def writeBalance (address : Address) (denom : Denom) (amount : Amount) : M Unit :=
  if amount.isZero then deleteKey (.balance address denom) else setEncoded (.balance address denom) amount

def writeSupply (denom : Denom) (amount : Amount) : M Unit :=
  if amount.isZero then deleteKey (.supply denom) else setEncoded (.supply denom) amount

def writeIssuer (denom : Denom) (i : Issuer) : M Unit := setEncoded (.issuer denom) i

def insufficient (denom : Denom) (needed available : Amount) : BankError :=
  .insufficientFunds denom.asStr (toString needed.units) (toString available.units)

/-! ## Moving money -/

def transfer (src dst : Address) (denom : Denom) (amount : Amount) : M Unit := do
  if amount.isZero then throw .zeroAmount
  if (← isFrozen src denom) || (← isFrozen dst denom) then throw (.accountFrozen denom.asStr)
  if src = dst then
    -- a self-transfer moves nothing, but the money has to be there
    let b ← balance src denom
    if b < amount then throw (insufficient denom amount b)
  else
    let srcBalance ← balance src denom
    let dstBalance ← balance dst denom
    let newSrc ← liftResult (fun _ => insufficient denom amount srcBalance) (srcBalance.checkedSub amount)
    let newDst ← liftResult (fun _ => .overflow "transfer/credit") (dstBalance.checkedAdd amount)
    writeBalance src denom newSrc
    writeBalance dst denom newDst

def requireIssuer (denom : Denom) : M Issuer := do
  if denom.isNative then throw .nativeNotIssuable
  match ← issuer denom with
  | some i => return i
  | none => throw (.noIssuer denom.asStr)

def requireAuthority (authority : Address) (denom : Denom) : M Issuer := do
  let i ← requireIssuer denom
  if !i.isAuthority authority then throw (.notIssuer denom.asStr)
  return i

def mint (minter dst : Address) (denom : Denom) (amount : Amount) : M Unit := do
  if amount.isZero then throw .zeroAmount
  let i ← requireIssuer denom
  if (i.minter minter).isNone then throw (.notMinter denom.asStr)
  if i.paused then throw (.issuerPaused denom.asStr)
  if ← isFrozen dst denom then throw (.accountFrozen denom.asStr)
  let supply ← totalSupply denom
  let newSupply ← liftResult (fun _ => .overflow "mint/supply") (supply.checkedAdd amount)
  if i.maxSupply.any fun cap => newSupply > cap then
    throw (.supplyCapExceeded denom.asStr (toString amount.units))
  let b ← balance dst denom
  let newBalance ← liftResult (fun _ => .overflow "mint/credit") (b.checkedAdd amount)
  match i.spendAllowance minter amount with
  | none =>
    throw (.mintAllowanceExceeded denom.asStr (toString amount.units) (toString (i.allowanceOf minter).units))
  | some i =>
    writeBalance dst denom newBalance
    writeSupply denom newSupply
    writeIssuer denom i

def burn (minter : Address) (denom : Denom) (amount : Amount) : M Unit := do
  if amount.isZero then throw .zeroAmount
  let i ← requireIssuer denom
  if (i.minter minter).isNone then throw (.notMinter denom.asStr)
  if ← isFrozen minter denom then throw (.accountFrozen denom.asStr)
  let b ← balance minter denom
  let newBalance ← liftResult (fun _ => insufficient denom amount b) (b.checkedSub amount)
  let supply ← totalSupply denom
  let newSupply ← liftResult (fun _ => .overflow "burn/supply") (supply.checkedSub amount)
  writeBalance minter denom newBalance
  writeSupply denom newSupply

/-- Destroys native coin held by a module account. The error prints amounts in whole coins. -/
def slashNative (src : Address) (amount : Amount) : M Unit := do
  if amount.isZero then throw .zeroAmount
  let b ← balance src .native
  let newBalance ← liftResult
    (fun _ => .insufficientFunds Denom.native.asStr amount.display b.display) (b.checkedSub amount)
  let supply ← totalSupply .native
  let newSupply ← liftResult (fun _ => .overflow "slash/supply") (supply.checkedSub amount)
  writeBalance src .native newBalance
  writeSupply .native newSupply

/-! ## Issuer configuration -/

def configure (authority : Address) (denom : Denom) (change : Issuer → Except IssuerError Issuer) : M Unit := do
  let i ← requireAuthority authority denom
  writeIssuer denom (← liftResult .issuer (change i))

def setMinterAllowance (authority : Address) (denom : Denom) (minter : Address) (allowance : Amount) : M Unit :=
  configure authority denom (·.setMinter minter allowance)

def transferIssuerAuthority (authority : Address) (denom : Denom) (dst : Option Address) : M Unit :=
  configure authority denom (·.offerAuthority dst)

def setFreezer (authority : Address) (denom : Denom) (freezer : Option Address) : M Unit :=
  configure authority denom fun i => .ok { i with freezer }

def setPaused (authority : Address) (denom : Denom) (paused : Bool) : M Unit :=
  configure authority denom fun i => .ok { i with paused }

def tightenSupplyCap (authority : Address) (denom : Denom) (cap : Amount) : M Unit :=
  configure authority denom (·.tightenCap cap)

/-- Unlike the other changes, the caller is the account the authority was offered to. -/
def acceptIssuerAuthority (caller : Address) (denom : Denom) : M Unit := do
  let i ← requireIssuer denom
  writeIssuer denom (← liftResult .issuer (i.acceptAuthority caller))

def registerIssuer (denom : Denom) (i : Issuer) : M Unit := do
  if denom.isNative then throw .nativeNotIssuable
  writeIssuer denom i

/-- The opening balance of an account, which no authority grants. -/
def genesisAllocate (dst : Address) (denom : Denom) (amount : Amount) : M Unit := do
  if amount.isZero then throw .zeroAmount
  let supply ← totalSupply denom
  let newSupply ← liftResult (fun _ => .overflow "genesis/supply") (supply.checkedAdd amount)
  let b ← balance dst denom
  let newBalance ← liftResult (fun _ => .overflow "genesis/credit") (b.checkedAdd amount)
  writeBalance dst denom newBalance
  writeSupply denom newSupply

def admitIssuer (denom : Denom) (authority : Address) : M Unit := do
  if (← issuer denom).isSome then throw (.issuerExists denom.asStr)
  registerIssuer denom (Issuer.new authority)

def freeze (caller address : Address) (denom : Denom) : M Unit := do
  let i ← requireIssuer denom
  if !i.mayFreeze caller then throw (.notFreezer denom.asStr)
  setEncoded (.frozen denom address) (1 : U8)

def unfreeze (caller address : Address) (denom : Denom) : M Unit := do
  let i ← requireIssuer denom
  if !i.mayFreeze caller then throw (.notFreezer denom.asStr)
  deleteKey (.frozen denom address)

end Bank

end AfroLink
