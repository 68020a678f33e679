import AfroLink.Executor.Block
import AfroLink.Alias.Registry
import AfroLink.Staking.Staking
import AfroLink.Gov.Governance

/-!
# The executor

One message, one transaction, one block. A message runs on the store it is given and may
leave it half changed when it fails; `executeTx` runs the messages on a copy.
-/

namespace AfroLink

inductive ExecError where
  | tx (e : TxError)
  | wrongNonce (expected got : U64)
  | bank (e : BankError)
  | group (e : GroupError)
  | staking (e : StakingError)
  | noSuchAccount
  | notAGroup
  | accountExists
  | feeDenomNotAccepted (denom : String)
  | notAGroupMember
  | noRotationRecipient
  | unauthorised
  | sponsorUnauthorised
  | wouldLockOut
  | regularKeyIsMasterKey
  | referenceRequired
  | registry (e : RegistryError)
  | bind (e : BindError)
  | gov (e : GovError)
  | state (e : StateError)
deriving DecidableEq

inductive ResultCode where
  | success | transaction | nonce | bank | group | staking | account | registry | binding
  | governance | state | reference | authorisation
deriving DecidableEq

def ResultCode.asU16 : ResultCode → U16
  | success => 0
  | transaction => 1
  | nonce => 2
  | bank => 3
  | group => 4
  | staking => 5
  | account => 6
  | registry => 7
  | binding => 8
  | state => 9
  | reference => 10
  | authorisation => 11
  | governance => 12

def ExecError.code : ExecError → ResultCode
  | tx _ => .transaction
  | wrongNonce .. => .nonce
  | bank _ => .bank
  | group _ => .group
  | staking _ => .staking
  | noSuchAccount | accountExists | notAGroup | notAGroupMember | noRotationRecipient => .account
  | referenceRequired => .reference
  | feeDenomNotAccepted _ => .bank
  | unauthorised | sponsorUnauthorised | wouldLockOut | regularKeyIsMasterKey => .authorisation
  | registry _ => .registry
  | bind _ => .binding
  | gov _ => .governance
  | state _ => .state

structure TouchedAccount where
  address : Address
  previous : Option TxPointer
deriving DecidableEq

structure TxReceipt where
  txId : Hash32
  code : ResultCode
  feeCharged : Amount
  touched : List TouchedAccount
deriving DecidableEq

structure TxOutcome where
  receipt : TxReceipt
  result : Except ExecError Unit

def TxOutcome.rejected (txId : Hash32) (error : ExecError) : TxOutcome :=
  { receipt := { txId, code := error.code, feeCharged := 0, touched := [] }, result := .error error }

structure BlockOutcome where
  appHash : Hash32
  outcomes : List TxOutcome

instance : Encode TxPointer := ⟨fun p => encode p.txId ++ encode p.height⟩
instance : Encode TouchedAccount := ⟨fun t => encode t.address ++ encode t.previous⟩
instance : Encode ResultCode := ⟨fun c => encode c.asU16⟩

instance : Encode TxReceipt := ⟨fun r => encode r.txId ++ encode r.code ++ encode r.feeCharged ++ encode r.touched⟩

structure Executor where
  chainId : ChainId
deriving DecidableEq

/-! ## Account records in the store -/

abbrev ExecM (α : Type) := StoreM ExecError α

namespace Exec

/-- The record at `address`, a fresh individual where there is none. -/
def loadAccount (address : Address) : ExecM Account := do
  return (← getDecoded .state (.account address)).getD (Account.individual address)

def loadExistingAccount (address : Address) : ExecM Account := do
  match ← getDecoded .state (.account address) with
  | some a => return a
  | none => throw .noSuchAccount

def writeAccount (address : Address) (a : Account) : ExecM Unit := setEncoded (.account address) a

def acceptsAsFee (denom : Denom) : ExecM Bool := do
  if denom.isNative then return true
  return (← mapErr .bank (Bank.issuer denom)).isSome

/-- Change the sender's own record, unless that would leave nobody able to sign. -/
def changeAccount (sender : Address) (change : Account → Except ExecError Account) : ExecM Unit := do
  let a ← liftResult id (change (← loadAccount sender))
  if !a.hasAUsableAuthority then throw .wouldLockOut
  writeAccount sender a

def ensureAccount (address : Address) : ExecM Unit := do
  if ((← get) (.account address)).isNone then writeAccount address (Account.individual address)

def paramsOf : ExecM ChainParams := mapErr .gov Governance.params

def staking {α : Type} (op : StakingParams → Staking.M α) : ExecM α := do
  let p ← paramsOf
  mapErr .staking (op p.staking)

/-! ## Groups -/

/-- The group record at `group`, for a sender who is a member of it. -/
def loadGroup (sender group : Address) : ExecM (Account × GroupAccount) := do
  let account ← loadExistingAccount group
  match account.asGroup with
  | none => throw .notAGroup
  | some g =>
    if !g.isMember sender then throw .notAGroupMember
    return (account, g)

def writeGroup (group : Address) (account : Account) (g : GroupAccount) : ExecM Unit :=
  writeAccount group { account with kind := .group g }

def bankTransfer (src dst : Address) (denom : Denom) (amount : Amount) : ExecM Unit :=
  mapErr .bank (Bank.transfer src dst denom amount)

def groupBalance (group : Address) (g : GroupAccount) : ExecM Amount :=
  mapErr .bank (Bank.balance group g.contribution.denom)

def contributeToGroup (sender group : Address) (amount : Amount) : ExecM Unit := do
  let (account, g) ← loadGroup sender group
  if amount ≠ g.contribution.amount then
    throw (.group (.wrongContributionAmount (toString g.contribution.amount.units) (toString amount.units)))
  let g' ← liftResult .group (g.recordContribution sender)
  bankTransfer sender group g.contribution.denom amount
  writeGroup group account g'

def groupPayout (height : Height) (sender group : Address) : ExecM Unit := do
  let (account, g) ← loadGroup sender group
  match g.nextRecipient with
  | none => throw .noRotationRecipient
  | some recipient =>
    if !g.payoutDue height then throw (.group .cycleNotDue)
    let pot ← groupBalance group g
    if pot.isZero then throw (.group .emptyPot)
    bankTransfer group recipient g.contribution.denom pot
    writeGroup group account (g.advanceCycle height)

def buyShares (sender group : Address) (shares : U32) : ExecM Unit := do
  let (account, g) ← loadGroup sender group
  let (g', cost) ← liftResult .group (g.buyShares sender shares)
  bankTransfer sender group g.contribution.denom cost
  writeGroup group account g'

def paySocialFund (sender group : Address) : ExecM Unit := do
  let (account, g) ← loadGroup sender group
  let (g', amount) ← liftResult .group (g.paySocial sender)
  bankTransfer sender group g.contribution.denom amount
  writeGroup group account g'

def proposeGroupAction (sender group beneficiary : Address) (kind : GroupProposalKind) : ExecM Unit := do
  let (account, g) ← loadGroup sender group
  let b ← groupBalance group g
  let g' ← liftResult .group (g.openProposal beneficiary kind b)
  writeGroup group account g'

/-- Carry out the pending proposal: the record it leaves, and whom to pay how much. -/
def carryOut (g : GroupAccount) (b : Amount) : Except GroupError (GroupAccount × Address × Amount) :=
  match g.pending with
  | none => .error .noProposal
  | some p =>
    match p.kind with
    | .loan .. => g.issueLoan b
    | .socialGrant _ => g.issueGrant

def approveGroupAction (sender group : Address) : ExecM Unit := do
  let (account, g) ← loadGroup sender group
  let b ← groupBalance group g
  let (g', passed) ← liftResult .group (g.approve sender)
  if passed then
    let (g'', beneficiary, amount) ← liftResult .group (carryOut g' b)
    bankTransfer group beneficiary g.contribution.denom amount
    writeGroup group account g''
  else
    writeGroup group account g'

def repayLoan (sender group : Address) (amount : Amount) : ExecM Unit := do
  let (account, g) ← loadGroup sender group
  let g' ← liftResult .group (g.repay sender amount)
  bankTransfer sender group g.contribution.denom amount
  writeGroup group account g'

def closeCycle (height : Height) (sender group : Address) : ExecM Unit := do
  let (account, g) ← loadGroup sender group
  let _ ← liftResult .group g.requireShareRules
  if !g.payoutDue height then throw (.group .cycleNotDue)
  writeGroup group account (g.advanceCycle height)

def payAll (src : Address) (denom : Denom) : List (Address × Amount) → ExecM Unit
  | [] => pure ()
  | (member, amount) :: rest => do
    bankTransfer src member denom amount
    payAll src denom rest

def shareOut (sender group : Address) : ExecM Unit := do
  let (account, g) ← loadGroup sender group
  let b ← groupBalance group g
  let fund ← liftResult .group (g.lendable b)
  let (g', payments) ← liftResult .group (g.shareOut fund)
  payAll group g.contribution.denom payments
  writeGroup group account g'

section

variable [Crypto]

def createGroup (height : Height) (sender : Address) (name : String) (members : List FoundingMember)
    (contribution : Contribution) (policy : PayoutPolicy) (quorum : Quorum) : ExecM Unit := do
  let creator ← loadAccount sender
  let address := Address.derived .groupAddress (sender.asBytes ++ leBytes 8 creator.nonce.val)
  let g ← liftResult .group
    (GroupAccount.new name (members.map (·.intoMember 0)) contribution policy quorum height)
  -- the record already at the derived address is converted, not replaced
  let account ← loadAccount address
  match account.kind with
  | .individual _ => writeGroup address account g
  | _ => throw .accountExists

def setRegularKey (key : Option PublicKey) (a : Account) : Except ExecError Account :=
  if key.any fun new => Address.fromPublicKey new == a.address then .error .regularKeyIsMasterKey
  else .ok { a with regularKey := key }

end

/-! ## Messages -/

def transfer (sender dst : Address) (denom : Denom) (amount : Amount) (reference : Option PaymentReference) :
    ExecM Unit := do
  let recipient ← loadAccount dst
  if !recipient.requiresReference.accepts reference then throw .referenceRequired
  bankTransfer sender dst denom amount
  ensureAccount dst

def applyGovAction : GovAction → ExecM Unit
  | .setCouncil c => mapErr .gov (Governance.setCouncil c)
  | .setParams p => mapErr .gov (Governance.setParams p)
  | .licenseAttestor address a => do
    mapErr .bind (Bindings.registerAttestor address a)
    ensureAccount address
  | .setAttestorActive address active => mapErr .bind (Bindings.setAttestorActive address active)
  | .admitDenom denom authority => do
    mapErr .bank (Bank.admitIssuer denom authority)
    ensureAccount authority
  | .cancel id => throw (.gov (.notScheduled id))

variable [Crypto]

def reportEquivocation (height : Height) (evidence : Equivocation) : ExecM Unit := do
  let set ← staking Staking.currentSet
  let _ ← staking fun _ => Staking.slashEquivocation evidence set height

def applyMessage (ctx : BlockContext) (sender : Address) : Message → ExecM Unit
  | .transfer dst denom amount reference => transfer sender dst denom amount reference
  | .setAccountFlag flag enabled => changeAccount sender fun a => .ok { a with flags := a.flags.set flag enabled }
  | .setRegularKey key => changeAccount sender (setRegularKey key)
  | .setSignerList list => changeAccount sender fun a => .ok { a with signers := list }
  | .createGroup name members contribution policy quorum =>
    createGroup ctx.height sender name members contribution policy quorum
  | .contributeToGroup group amount => contributeToGroup sender group amount
  | .groupPayout group => groupPayout ctx.height sender group
  | .buyShares group shares => buyShares sender group shares
  | .paySocialFund group => paySocialFund sender group
  | .proposeGroupAction group beneficiary kind => proposeGroupAction sender group beneficiary kind
  | .approveGroupAction group => approveGroupAction sender group
  | .repayLoan group amount => repayLoan sender group amount
  | .closeCycle group => closeCycle ctx.height sender group
  | .shareOut group => shareOut sender group
  | .mint denom dst amount => mapErr .bank (Bank.mint sender dst denom amount)
  | .burn denom amount => mapErr .bank (Bank.burn sender denom amount)
  | .setMinterAllowance denom minter allowance =>
    mapErr .bank (Bank.setMinterAllowance sender denom minter allowance)
  | .setIssuerPaused denom paused => mapErr .bank (Bank.setPaused sender denom paused)
  | .setSupplyCap denom cap => mapErr .bank (Bank.tightenSupplyCap sender denom cap)
  | .setFreezer denom freezer => mapErr .bank (Bank.setFreezer sender denom freezer)
  | .setFrozen denom account frozen =>
    mapErr .bank (if frozen then Bank.freeze sender account denom else Bank.unfreeze sender account denom)
  | .transferIssuerAuthority denom dst => do
    mapErr .bank (Bank.transferIssuerAuthority sender denom dst)
    match dst with
    | some address => ensureAccount address
    | none => pure ()
  | .acceptIssuerAuthority denom => mapErr .bank (Bank.acceptIssuerAuthority sender denom)
  | .proposeGovAction action => do
    let _ ← mapErr .gov (Governance.propose sender action ctx.height)
  | .voteGovAction proposal => do
    let _ ← mapErr .gov (Governance.vote sender proposal ctx.height)
  | .executeGovAction proposal => do
    let action ← mapErr .gov (Governance.execute proposal ctx.height)
    applyGovAction action
  | .registerName name => mapErr .registry (Registry.register name sender ctx.height)
  | .renewName name => mapErr .registry (Registry.renew name sender ctx.height)
  | .transferName name dst => do
    mapErr .registry (Registry.transfer name sender dst ctx.height)
    ensureAccount dst
  | .setPrimaryAlias name => mapErr .registry (Registry.setPrimary name sender ctx.height)
  | .clearPrimaryAlias => mapErr .registry (Registry.clearPrimary sender)
  | .releaseName name => mapErr .registry (Registry.release name sender ctx.height)
  | .attestContact commitment address => do
    mapErr .bind (Bindings.attest commitment address sender ctx.height)
    ensureAccount address
  | .requestRebind commitment newAddress => do
    let p ← paramsOf
    mapErr .bind (Bindings.requestRebind p.rebindDelayBlocks commitment newAddress sender ctx.height)
  | .vetoRebind commitment => mapErr .bind (Bindings.vetoRebind commitment sender)
  | .applyRebind commitment => do
    let address ← mapErr .bind (Bindings.applyRebind commitment ctx.height)
    ensureAccount address
  | .revokeContact commitment => mapErr .bind (Bindings.revoke commitment sender)
  | .bond publicKey country amount => staking fun p => Staking.bond p sender publicKey country amount
  | .addStake amount => staking fun _ => Staking.addStake sender amount
  | .unbond amount => staking fun p => Staking.unbond p sender amount ctx.height ctx.time
  | .withdrawUnbonded => do
    let _ ← staking fun _ => Staking.withdraw sender ctx.time
  | .reportEquivocation evidence => reportEquivocation ctx.height evidence

def applyMessages (ctx : BlockContext) (sender : Address) : List Message → ExecM Unit
  | [] => pure ()
  | m :: rest => do
    applyMessage ctx sender m
    applyMessages ctx sender rest

/-! ## Transactions -/

/-- The record at `address` for bookkeeping: an unreadable one counts as absent. -/
def readOrFresh (s : Store) (address : Address) : Account :=
  match s.getDecoded (.account address) with
  | .ok (some a) => a
  | _ => Account.individual address

def bumpNonce (s : Store) (address : Address) : Store :=
  s.set (.account address) (readOrFresh s address).incrementNonce

def pointAt (a : Account) (pointer : TxPointer) : Account := { a with lastTxn := some pointer }

def moveHistoryPointer (s : Store) (address : Address) (pointer : TxPointer) : Store × Option TxPointer :=
  let a := readOrFresh s address
  (s.set (.account address) (pointAt a pointer), a.lastTxn)

def touchAll (pointer : TxPointer) : List Address → Store → Store × List TouchedAccount
  | [], s => (s, [])
  | address :: rest, s =>
    let (s, previous) := moveHistoryPointer s address pointer
    let (s, touched) := touchAll pointer rest s
    (s, ⟨address, previous⟩ :: touched)

/-- Signing authority, nonce, sponsor and fee denomination; the account charged. -/
def checkTx (e : Executor) (ctx : BlockContext) (t : Transaction) : ExecM Address := do
  liftResult .tx (t.verifyStateless e.chainId ctx.height)
  let account ← loadAccount t.body.sender
  if !account.authorises t.signingKeys then throw .unauthorised
  if account.nonce ≠ t.body.nonce then throw (.wrongNonce account.nonce t.body.nonce)
  let feePayer := t.body.fee.payerOr t.body.sender
  if t.body.fee.isSponsored then
    let payer ← loadAccount feePayer
    if !payer.authorises t.sponsorKeys then throw .sponsorUnauthorised
  if !(← acceptsAsFee t.body.fee.denom) then throw (.feeDenomNotAccepted t.body.fee.denom.asStr)
  return feePayer

def feeCollectorAddress : Address := Address.derived .moduleAddress (utf8Bytes "fee_collector")

/-- After the fee is charged: messages on a copy, then the nonce and the history pointers. -/
def settle (ctx : BlockContext) (t : Transaction) (feePayer : Address) (s : Store) : Store × TxOutcome :=
  let (s, result, code) : Store × Except ExecError Unit × ResultCode :=
    match applyMessages ctx t.body.sender t.body.messages s with
    | .ok _ sandbox => (sandbox, .ok (), .success)
    | .error e _ => (s, .error e, e.code)
  let s := bumpNonce s t.body.sender
  let touched := match result with
    | .ok _ => t.touchedAddresses
    | .error _ => sortDedup [t.body.sender, feePayer]
  let (s, touched) := touchAll ⟨t.id, ctx.height⟩ touched s
  (s, { receipt := { txId := t.id, code, feeCharged := t.body.fee.amount, touched }, result })

def executeTx (e : Executor) (ctx : BlockContext) (t : Transaction) (s : Store) : Store × TxOutcome :=
  match checkTx e ctx t s with
  | .error err s => (s, .rejected t.id err)
  | .ok feePayer s =>
    match bankTransfer feePayer feeCollectorAddress t.body.fee.denom t.body.fee.amount s with
    | .ok _ s => settle ctx t feePayer s
    | .error err s =>
      if t.body.fee.amount.isZero then settle ctx t feePayer s else (s, .rejected t.id err)

def executeTxs (e : Executor) (ctx : BlockContext) : List Transaction → Store → Store × List TxOutcome
  | [], s => (s, [])
  | t :: rest, s =>
    let (s, outcome) := executeTx e ctx t s
    let (s, outcomes) := executeTxs e ctx rest s
    (s, outcome :: outcomes)

end Exec

variable [Crypto] [StateRoot]

def BlockOutcome.outcomeRoot (o : BlockOutcome) : Hash32 := merkleRoot (o.outcomes.map fun t => encode t.receipt)

def Executor.executeBlock (e : Executor) (s : Store) (ctx : BlockContext) (transactions : List Transaction) :
    Store × BlockOutcome :=
  let (s, outcomes) := Exec.executeTxs e ctx transactions s
  (s, { appHash := StateRoot.root s, outcomes })

def Executor.buildBlock (e : Executor) (s : Store) (height : Height) (time : Timestamp) (parent : Hash32)
    (transactions : List Transaction) (sets : ValidatorSets) : Store × Block × BlockOutcome :=
  let (s, outcome) := e.executeBlock s ⟨height, time⟩ transactions
  let header : BlockHeader :=
    { chainId := e.chainId, height, time, parent, txRoot := Block.txRoot transactions,
      appHash := outcome.appHash, outcomeRoot := outcome.outcomeRoot,
      validatorsHash := sets.current.hash, nextValidatorsHash := sets.next.hash }
  (s, { header, transactions }, outcome)

end AfroLink
