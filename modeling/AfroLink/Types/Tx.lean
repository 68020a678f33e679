import AfroLink.Gov.Types
import AfroLink.Consensus.Vote

/-!
# Transactions and messages

The 42 messages, what a transaction's signatures commit to, and the stateless checks.
-/

namespace AfroLink

def MAX_MEMO_LEN : Nat := 256
def MAX_MESSAGES : Nat := 64
def MAX_SIGNATURES : Nat := MAX_SIGNERS

inductive TxError where
  | invalidSignature
  | signatureCount (n : Nat)
  | unsortedSignatures
  | sponsorSignatureMismatch
  | selfSponsored
  | wrongChain (signed expected : String)
  | expired (validUntil current : U64)
  | messageCount (n : Nat)
  | memoTooLong
  | zeroAmount
  | zeroFee
deriving DecidableEq, Repr

structure Fee where
  amount : Amount
  denom : Denom
  /-- Who pays; `none` is the sender. -/
  payer : Option Address
deriving DecidableEq

def Fee.payerOr (f : Fee) (sender : Address) : Address := f.payer.getD sender
def Fee.isSponsored (f : Fee) : Bool := f.payer.isSome

structure PaymentReference where
  value : U64
deriving DecidableEq

def RequiresReference.accepts : RequiresReference → Option PaymentReference → Bool
  | .no, _ => true
  | .yes, reference => reference.isSome

inductive Message where
  | transfer (dst : Address) (denom : Denom) (amount : Amount) (reference : Option PaymentReference)
  | createGroup (name : String) (members : List FoundingMember) (contribution : Contribution)
      (policy : PayoutPolicy) (quorum : Quorum)
  | contributeToGroup (group : Address) (amount : Amount)
  | groupPayout (group : Address)
  | registerName (name : Username)
  | renewName (name : Username)
  | transferName (name : Username) (dst : Address)
  | setPrimaryAlias (name : Username)
  | attestContact (commitment : ContactCommitment) (address : Address)
  | requestRebind (commitment : ContactCommitment) (newAddress : Address)
  | vetoRebind (commitment : ContactCommitment)
  | revokeContact (commitment : ContactCommitment)
  | clearPrimaryAlias
  | releaseName (name : Username)
  | bond (publicKey : PublicKey) (country : CountryCode) (amount : Amount)
  | addStake (amount : Amount)
  | unbond (amount : Amount)
  | withdrawUnbonded
  | reportEquivocation (evidence : Equivocation)
  | setAccountFlag (flag : AccountFlag) (enabled : Bool)
  | setRegularKey (key : Option PublicKey)
  | setSignerList (list : Option SignerList)
  | applyRebind (commitment : ContactCommitment)
  | buyShares (group : Address) (shares : U32)
  | paySocialFund (group : Address)
  | proposeGroupAction (group beneficiary : Address) (kind : GroupProposalKind)
  | approveGroupAction (group : Address)
  | repayLoan (group : Address) (amount : Amount)
  | closeCycle (group : Address)
  | shareOut (group : Address)
  | mint (denom : Denom) (dst : Address) (amount : Amount)
  | burn (denom : Denom) (amount : Amount)
  | setMinterAllowance (denom : Denom) (minter : Address) (allowance : Amount)
  | setIssuerPaused (denom : Denom) (paused : Bool)
  | setSupplyCap (denom : Denom) (cap : Amount)
  | setFreezer (denom : Denom) (freezer : Option Address)
  | setFrozen (denom : Denom) (account : Address) (frozen : Bool)
  | transferIssuerAuthority (denom : Denom) (dst : Option Address)
  | acceptIssuerAuthority (denom : Denom)
  | proposeGovAction (action : GovAction)
  | voteGovAction (proposal : U64)
  | executeGovAction (proposal : U64)
deriving DecidableEq

structure TxBody where
  chainId : ChainId
  sender : Address
  nonce : U64
  validUntil : Height
  fee : Fee
  messages : List Message
  memo : String
deriving DecidableEq

structure TxSignature where
  publicKey : PublicKey
  signature : Signature
deriving DecidableEq

structure Transaction where
  body : TxBody
  signatures : List TxSignature
  sponsorSignatures : List TxSignature
deriving DecidableEq

/-! ## Canonical encoding -/

instance : Encode Role where
  encode
    | .treasurer => [0]
    | .member => [1]

instance : Encode FoundingMember := ⟨fun m => encode m.address ++ encode m.role⟩
instance : Encode Contribution := ⟨fun c => encode c.amount ++ encode c.denom ++ encode c.periodBlocks⟩
instance : Encode Quorum := ⟨fun q => encode q.numerator ++ encode q.denominator⟩

instance : Encode ShareRules := ⟨fun r => encode r.minShares ++ encode r.maxShares ++ encode r.cyclesPerRound ++
  encode r.serviceChargeBps ++ encode r.coverBps ++ encode r.loanTermCycles ++ encode r.lateFineBps ++
  encode r.requiredGuarantors ++ encode r.socialContribution⟩

instance : Encode PayoutPolicy where
  encode
    | .rotation order next => 0 :: (encode order ++ encode next)
    | .accumulate rules => 1 :: encode rules

instance : Encode GroupProposalKind where
  encode
    | .loan principal guarantors => 0 :: (encode principal ++ encode guarantors)
    | .socialGrant amount => 1 :: encode amount

instance : Encode AccountFlag := ⟨fun f => encode f.bit⟩
instance : Encode Signer := ⟨fun s => encode s.key ++ encode s.weight⟩
instance : Encode SignerList := ⟨fun l => encode l.signers ++ encode l.quorum⟩
instance : Encode PaymentReference := ⟨fun r => encode r.value⟩

def Message.toBytes : Message → Bytes
  | .transfer dst denom amount reference => 0 :: (encode dst ++ encode denom ++ encode amount ++ encode reference)
  | .createGroup name members contribution policy quorum =>
    1 :: (encode name ++ encode members ++ encode contribution ++ encode policy ++ encode quorum)
  | .contributeToGroup group amount => 2 :: (encode group ++ encode amount)
  | .groupPayout group => 3 :: encode group
  | .registerName name => 4 :: encode name
  | .renewName name => 5 :: encode name
  | .transferName name dst => 6 :: (encode name ++ encode dst)
  | .setPrimaryAlias name => 7 :: encode name
  | .attestContact commitment address => 8 :: (encode commitment ++ encode address)
  | .requestRebind commitment newAddress => 9 :: (encode commitment ++ encode newAddress)
  | .vetoRebind commitment => 10 :: encode commitment
  | .revokeContact commitment => 11 :: encode commitment
  | .clearPrimaryAlias => [12]
  | .releaseName name => 13 :: encode name
  | .bond publicKey country amount => 14 :: (encode publicKey ++ encode country ++ encode amount)
  | .addStake amount => 15 :: encode amount
  | .unbond amount => 16 :: encode amount
  | .withdrawUnbonded => [17]
  | .reportEquivocation evidence => 18 :: encode evidence
  | .setAccountFlag flag enabled => 19 :: (encode flag ++ encode enabled)
  | .setRegularKey key => 20 :: encode key
  | .setSignerList list => 21 :: encode list
  | .applyRebind commitment => 22 :: encode commitment
  | .buyShares group shares => 23 :: (encode group ++ encode shares)
  | .paySocialFund group => 24 :: encode group
  | .proposeGroupAction group beneficiary kind => 25 :: (encode group ++ encode beneficiary ++ encode kind)
  | .approveGroupAction group => 26 :: encode group
  | .repayLoan group amount => 27 :: (encode group ++ encode amount)
  | .closeCycle group => 28 :: encode group
  | .shareOut group => 29 :: encode group
  | .mint denom dst amount => 30 :: (encode denom ++ encode dst ++ encode amount)
  | .burn denom amount => 31 :: (encode denom ++ encode amount)
  | .setMinterAllowance denom minter allowance => 32 :: (encode denom ++ encode minter ++ encode allowance)
  | .setIssuerPaused denom paused => 33 :: (encode denom ++ encode paused)
  | .setSupplyCap denom cap => 34 :: (encode denom ++ encode cap)
  | .setFreezer denom freezer => 35 :: (encode denom ++ encode freezer)
  | .setFrozen denom account frozen => 36 :: (encode denom ++ encode account ++ encode frozen)
  | .transferIssuerAuthority denom dst => 37 :: (encode denom ++ encode dst)
  | .acceptIssuerAuthority denom => 38 :: encode denom
  | .proposeGovAction action => 39 :: encode action
  | .voteGovAction proposal => 40 :: encode proposal
  | .executeGovAction proposal => 41 :: encode proposal

instance : Encode Message := ⟨Message.toBytes⟩
instance : Encode Fee := ⟨fun f => encode f.amount ++ encode f.denom ++ encode f.payer⟩

instance : Encode TxBody := ⟨fun b => encode b.chainId ++ encode b.sender ++ encode b.nonce ++
  encode b.validUntil ++ encode b.fee ++ encode b.messages ++ encode b.memo⟩

instance : Encode TxSignature := ⟨fun s => encode s.publicKey ++ encode s.signature⟩

instance : Encode Transaction := ⟨fun t => encode t.body ++ encode t.signatures ++ encode t.sponsorSignatures⟩

/-! ## Stateless checks -/

/-- The quantity `validate_basic` requires to be non-zero, for the messages that have one. -/
def Message.quantity : Message → Option Nat
  | .transfer _ _ amount _ | .contributeToGroup _ amount | .repayLoan _ amount | .mint _ _ amount
  | .burn _ amount | .bond _ _ amount | .addStake amount | .unbond amount => some amount.val
  | .buyShares _ shares => some shares.val
  | .proposeGroupAction _ _ (.loan principal _) => some principal.val
  | .proposeGroupAction _ _ (.socialGrant amount) => some amount.val
  | _ => none

def TxBody.signDoc (b : TxBody) : Bytes := encode b

def TxBody.validateBasic (b : TxBody) : Except TxError Unit :=
  if b.messages.length = 0 ∨ b.messages.length > MAX_MESSAGES then .error (.messageCount b.messages.length)
  else if b.memo.utf8ByteSize > MAX_MEMO_LEN then .error .memoTooLong
  else if b.fee.payer = some b.sender then .error .selfSponsored
  else if b.fee.amount.isZero then .error .zeroFee
  else if b.messages.any fun m => m.quantity == some 0 then .error .zeroAmount
  else .ok ()

/-- The accounts a message files in the history index, besides the sender. -/
def Message.touches : Message → List Address
  | .transfer dst .. => [dst]
  | .contributeToGroup group _ | .groupPayout group | .buyShares group _ | .paySocialFund group
  | .repayLoan group _ | .closeCycle group | .shareOut group => [group]
  | .proposeGroupAction group beneficiary (.loan _ guarantors) => group :: beneficiary :: guarantors
  | .proposeGroupAction group beneficiary (.socialGrant _) => [group, beneficiary]
  | .approveGroupAction group => [group]
  | .createGroup _ members _ _ _ => members.map (·.address)
  | .transferName _ dst => [dst]
  | .mint _ dst _ => [dst]
  | .setFrozen _ account _ => [account]
  | .setMinterAllowance _ minter _ => [minter]
  | .setFreezer _ freezer => freezer.toList
  | .attestContact _ address => [address]
  | .requestRebind _ newAddress => [newAddress]
  | .reportEquivocation evidence => [evidence.validator]
  | .transferIssuerAuthority _ dst => dst.toList
  | .proposeGovAction (.licenseAttestor address _) | .proposeGovAction (.setAttestorActive address _) => [address]
  | .proposeGovAction (.admitDenom _ authority) => [authority]
  | .proposeGovAction (.setCouncil council) => council.seats.map (·.holder)
  | _ => []

namespace Transaction

def touchedAddresses (t : Transaction) : List Address :=
  sortDedup (t.body.sender :: t.body.messages.flatMap Message.touches)

def signingKeys (t : Transaction) : List PublicKey := t.signatures.map (·.publicKey)
def sponsorKeys (t : Transaction) : List PublicKey := t.sponsorSignatures.map (·.publicKey)

variable [Crypto]

def id (t : Transaction) : Hash32 := hash .txId (encode t)

def checkSignatureList (doc : Bytes) (list : List TxSignature) : Except TxError Unit :=
  if ¬ list.IsChain (fun a b => a.publicKey.bytes < b.publicKey.bytes) then .error .unsortedSignatures
  else if list.all fun e => e.publicKey.verify .txSignDoc doc e.signature then .ok ()
  else .error .invalidSignature

def checkSignatures (t : Transaction) : Except TxError Unit := do
  if t.signatures.length = 0 ∨ t.signatures.length > MAX_SIGNATURES then throw (.signatureCount t.signatures.length)
  if t.sponsorSignatures.length > MAX_SIGNATURES then throw (.signatureCount t.sponsorSignatures.length)
  if t.body.fee.isSponsored = t.sponsorSignatures.isEmpty then throw .sponsorSignatureMismatch
  checkSignatureList t.body.signDoc t.signatures
  checkSignatureList t.body.signDoc t.sponsorSignatures

def verifyStateless (t : Transaction) (chainId : ChainId) (currentHeight : Height) : Except TxError Unit := do
  t.body.validateBasic
  if t.body.chainId ≠ chainId then throw (.wrongChain t.body.chainId.asStr chainId.asStr)
  if currentHeight > t.body.validUntil then throw (.expired t.body.validUntil currentHeight)
  t.checkSignatures

end Transaction

def TxBody.sign [Crypto] (b : TxBody) (key : SecretKey) : Transaction :=
  { body := b, sponsorSignatures := [],
    signatures := [{ publicKey := key.publicKey, signature := key.sign .txSignDoc b.signDoc }] }

end AfroLink
