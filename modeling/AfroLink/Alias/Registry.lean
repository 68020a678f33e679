import AfroLink.State.Store

/-!
# The name registry and contact bindings
-/

namespace AfroLink

def REGISTRATION_BLOCKS : U64 := 31536000
def GRACE_BLOCKS : U64 := 2592000

inductive RegistryError where
  | name (e : NameError)
  | taken (name : String)
  | confusable (requested existing : String)
  | notFound (name : String)
  | notOwner (name : String)
  | corrupt (text : String)
deriving DecidableEq, Repr

def NameRecord.isClaimable (r : NameRecord) (now : Height) : Bool :=
  Fin.saturatingAdd r.expiresAt GRACE_BLOCKS ≤ now

namespace Registry

abbrev M (α : Type) := StoreM RegistryError α

def corruptState (e : StateError) : RegistryError := .corrupt e.text

def lookup (name : Username) : M (Option NameRecord) := getDecoded corruptState (.aliasName name.asStr)

def primaryName (address : Address) : M (Option String) := getDecoded corruptState (.aliasReverse address)

def skeletonHolder (skeleton : String) : M (Option String) := getDecoded corruptState (.aliasSkeleton skeleton)

/-- Only a live registration of another name blocks its skeleton. -/
def checkConfusable (name : Username) (now : Height) : M Unit := do
  match ← skeletonHolder name.skeleton with
  | none => return
  | some holder =>
    if holder ≠ name.asStr then
      let holderName ← liftResult .name (Username.new holder)
      if (← lookup holderName).any fun r => !r.isClaimable now then
        throw (.confusable name.asStr holder)

def register (name : Username) (owner : Address) (now : Height) : M Unit := do
  if (← lookup name).any fun r => !r.isClaimable now then throw (.taken name.asStr)
  checkConfusable name now
  let record : NameRecord := ⟨owner, now, Fin.saturatingAdd now REGISTRATION_BLOCKS⟩
  setEncoded (.aliasName name.asStr) record
  setEncoded (.aliasSkeleton name.skeleton) name.asStr

def ownedBy (name : Username) (caller : Address) (now : Height) : M NameRecord := do
  match ← lookup name with
  | none => throw (.notFound name.asStr)
  | some record =>
    if record.owner ≠ caller then throw (.notOwner name.asStr)
    if record.isClaimable now then throw (.notFound name.asStr)
    return record

def renew (name : Username) (caller : Address) (now : Height) : M Unit := do
  let record ← ownedBy name caller now
  setEncoded (.aliasName name.asStr)
    ({ record with expiresAt := Fin.saturatingAdd (max record.expiresAt now) REGISTRATION_BLOCKS } : NameRecord)

def dropPrimary (name : Username) (caller : Address) : M Unit := do
  if (← primaryName caller) = some name.asStr then deleteKey (.aliasReverse caller)

def transfer (name : Username) (caller dst : Address) (now : Height) : M Unit := do
  let record ← ownedBy name caller now
  setEncoded (.aliasName name.asStr) ({ record with owner := dst } : NameRecord)
  dropPrimary name caller

def setPrimary (name : Username) (caller : Address) (now : Height) : M Unit := do
  let _ ← ownedBy name caller now
  setEncoded (.aliasReverse caller) name.asStr

def clearPrimary (caller : Address) : M Unit := deleteKey (.aliasReverse caller)

def release (name : Username) (caller : Address) (now : Height) : M Unit := do
  let _ ← ownedBy name caller now
  deleteKey (.aliasName name.asStr)
  deleteKey (.aliasSkeleton name.skeleton)
  dropPrimary name caller

end Registry

inductive BindError where
  | notAnAttestor (address : Address)
  | attestorSuspended (address : Address)
  | notBound
  | alreadyBound
  | noPendingRebind
  | rebindPending
  | tooEarly (effectiveAt now : U64)
  | notBoundAccount
  | corrupt (text : String)
deriving DecidableEq, Repr

namespace Bindings

abbrev M (α : Type) := StoreM BindError α

def corruptState (e : StateError) : BindError := .corrupt e.text

def resolve (c : ContactCommitment) : M (Option ContactRecord) := getDecoded corruptState (.contact c.asHash)

def attestor (address : Address) : M (Option Attestor) := getDecoded corruptState (.attestor address)

def write (c : ContactCommitment) (record : ContactRecord) : M Unit := setEncoded (.contact c.asHash) record

def requireAttestor (address : Address) : M Attestor := do
  match ← attestor address with
  | some a => return a
  | none => throw (.notAnAttestor address)

def requireActiveAttestor (address : Address) : M Unit := do
  let a ← requireAttestor address
  if !a.active then throw (.attestorSuspended address)

def requireBound (c : ContactCommitment) : M ContactRecord := do
  match ← resolve c with
  | some record => return record
  | none => throw .notBound

def registerAttestor (address : Address) (a : Attestor) : M Unit := setEncoded (.attestor address) a

def setAttestorActive (address : Address) (active : Bool) : M Unit := do
  let a ← requireAttestor address
  setEncoded (.attestor address) ({ a with active } : Attestor)

def attest (c : ContactCommitment) (address issuer : Address) (now : Height) : M Unit := do
  requireActiveAttestor issuer
  if (← resolve c).isSome then throw .alreadyBound
  write c { address, issuer, attestedAt := now, rebind := none }

def requestRebind (delayBlocks : U64) (c : ContactCommitment) (newAddress issuer : Address) (now : Height) :
    M Unit := do
  requireActiveAttestor issuer
  let record ← requireBound c
  if record.rebind.isSome then throw .rebindPending
  write c { record with
    rebind := some { newAddress, issuer, effectiveAt := Fin.saturatingAdd now delayBlocks } }

def vetoRebind (c : ContactCommitment) (caller : Address) : M Unit := do
  let record ← requireBound c
  if record.rebind.isNone then throw .noPendingRebind
  if record.address ≠ caller then throw .notBoundAccount
  write c { record with rebind := none }

def applyRebind (c : ContactCommitment) (now : Height) : M Address := do
  let record ← requireBound c
  match record.rebind with
  | none => throw .noPendingRebind
  | some pending =>
    if now < pending.effectiveAt then throw (.tooEarly pending.effectiveAt now)
    write c { address := pending.newAddress, issuer := pending.issuer, attestedAt := now, rebind := none }
    return pending.newAddress

def revoke (c : ContactCommitment) (caller : Address) : M Unit := do
  let record ← requireBound c
  if record.address ≠ caller then throw .notBoundAccount
  deleteKey (.contact c.asHash)

end Bindings

end AfroLink
