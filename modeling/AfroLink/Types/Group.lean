import AfroLink.Crypto.Basic

/-!
# Group accounts

Rotating groups (`Rotation`) and accumulating ones (`Accumulate`). An operation taking
`&mut self` returns the record it leaves; every caller drops the record on an error.
-/

namespace AfroLink

def MAX_GROUP_MEMBERS : Nat := 100
def MAX_SHARES_PER_CYCLE : U32 := 10
def BPS_DENOMINATOR : U32 := 10000

def widen {n m : Nat} (h : n ≤ m) (x : Fin n) : Fin m := x.castLE h

abbrev u32To128 (x : U32) : U128 := widen (by decide) x
abbrev u64To128 (x : U64) : U128 := widen (by decide) x
abbrev u32To64 (x : U32) : U64 := widen (by decide) x

inductive GroupError where
  | tooFewMembers (n : Nat)
  | duplicateMember
  | treasurerCount (n : Nat)
  | invalidRotationOrder
  | invalidQuorum (numerator denominator : U32)
  | notAMember
  | zeroContribution
  | invalidName
  | tooManyMembers (n : Nat)
  | alreadyContributed
  | wrongContributionAmount (expected got : String)
  | cycleNotDue
  | emptyPot
  | notAccumulating
  | notRotating
  | invalidShareRules (rule : String)
  | zeroShares
  | shareLimit (max requested : U32)
  | alreadyBorrowing
  | insufficientCover (required held : String)
  | loanFundShort
  | noLoan
  | overpayment (owed : String)
  | badGuarantor
  | guarantorCount (need got : U32)
  | proposalPending
  | noProposal
  | alreadyApproved
  | tooLateInRound (due roundEnds : U64)
  | roundNotComplete (done needed : U64)
  | socialFundShort
  | emptyFund
  | noShares
  | overflow
deriving DecidableEq, Repr

def orOverflow {α : Type} : Except PrimError α → Except GroupError α
  | .ok a => .ok a
  | .error _ => .error .overflow

inductive Role where
  | treasurer | member
deriving DecidableEq, Repr

structure FoundingMember where
  address : Address
  role : Role
deriving DecidableEq

/-! ## Loans and members -/

structure Loan where
  principal : Amount
  serviceCharge : Amount
  repaid : Amount
  dueCycle : U64
  guarantors : List Address
  fined : Bool
deriving DecidableEq

namespace Loan

def outstanding (l : Loan) : Except GroupError Amount := do
  let total ← orOverflow (l.principal.checkedAdd l.serviceCharge)
  return Fin.saturatingSub total l.repaid

def isSettled (l : Loan) : Bool :=
  match l.outstanding with
  | .ok a => a.isZero
  | .error _ => false

def isOverdue (l : Loan) (cycle : U64) : Bool := l.dueCycle ≤ cycle && !l.isSettled

end Loan

structure Member where
  address : Address
  role : Role
  joinedCycle : U64
  contributionsMade : U64 := 0
  contributionsMissed : U64 := 0
  lastPaidCycle : Option U64 := none
  shares : U64 := 0
  sharesThisCycle : U32 := 0
  loan : Option Loan := none
  finesOwed : Amount := 0
  socialPaidCycle : Option U64 := none
  loansRepaid : U64 := 0
  loansDefaulted : U64 := 0
deriving DecidableEq

namespace Member

def new (address : Address) (role : Role) (cycle : U64) : Member :=
  { address, role, joinedCycle := cycle }

def hasPaid (m : Member) (cycle : U64) : Bool := m.lastPaidCycle == some cycle
def hasPaidSocial (m : Member) (cycle : U64) : Bool := m.socialPaidCycle == some cycle

def contributionsDue (m : Member) : U64 := m.contributionsMade.saturatingAdd m.contributionsMissed

/-- The rate at which the member paid on time, in basis points; none before anything was due. -/
def reliabilityBps (m : Member) : Option U32 :=
  let due := m.contributionsDue
  if due = 0 then none
  else
    let bps := min (m.contributionsMade.val * 10000) (2 ^ 64 - 1) / due.val
    if h : bps < 2 ^ 32 then some ⟨bps, h⟩ else none

def owed (m : Member) : Except GroupError Amount := do
  let loan ← match m.loan with
    | some l => l.outstanding
    | none => pure 0
  orOverflow (loan.checkedAdd m.finesOwed)

end Member

def FoundingMember.intoMember (f : FoundingMember) (cycle : U64) : Member :=
  Member.new f.address f.role cycle

/-! ## The rules of an accumulating group -/

structure ShareRules where
  minShares : U32
  maxShares : U32
  cyclesPerRound : U64
  serviceChargeBps : U32
  coverBps : U32
  loanTermCycles : U64
  lateFineBps : U32
  requiredGuarantors : U32
  socialContribution : Amount
deriving DecidableEq

namespace ShareRules

def validate (r : ShareRules) : Except GroupError Unit :=
  if r.minShares = 0 then .error (.invalidShareRules "a member must buy at least one share per cycle")
  else if r.maxShares < r.minShares then .error (.invalidShareRules "the share ceiling is below the floor")
  else if r.maxShares > MAX_SHARES_PER_CYCLE then
    .error (.invalidShareRules "the share ceiling exceeds the protocol maximum")
  else if r.cyclesPerRound = 0 then .error (.invalidShareRules "a round must run at least one cycle")
  else if r.loanTermCycles = 0 then .error (.invalidShareRules "a loan must have at least one cycle to run")
  else if r.loanTermCycles > r.cyclesPerRound then
    .error (.invalidShareRules "a loan term cannot outlast the round it is made in")
  else if r.serviceChargeBps > BPS_DENOMINATOR then
    .error (.invalidShareRules "a service charge above 100% of principal")
  else if r.lateFineBps > BPS_DENOMINATOR then
    .error (.invalidShareRules "a late fine above 100% of the debt")
  else if r.coverBps = 0 ∨ r.coverBps > BPS_DENOMINATOR then
    .error (.invalidShareRules "loan cover must be between 1 basis point and 100%")
  else .ok ()

def serviceChargeOn (r : ShareRules) (principal : Amount) : Except GroupError Amount :=
  orOverflow (principal.mulRatio (u32To128 r.serviceChargeBps) (u32To128 BPS_DENOMINATOR))

def coverRequiredFor (r : ShareRules) (principal : Amount) : Except GroupError Amount :=
  orOverflow (principal.mulRatio (u32To128 r.coverBps) (u32To128 BPS_DENOMINATOR))

end ShareRules

/-! ## Proposals, policies, quorums -/

inductive GroupProposalKind where
  | loan (principal : Amount) (guarantors : List Address)
  | socialGrant (amount : Amount)
deriving DecidableEq

structure GroupProposal where
  beneficiary : Address
  kind : GroupProposalKind
  approvals : List Address
  openedCycle : U64
deriving DecidableEq

/-- Insert into a sorted list without repeats; the binary search of the source is on a
list the decoder keeps sorted. -/
def GroupProposal.approve (p : GroupProposal) (member : Address) : Except GroupError GroupProposal :=
  if member ∈ p.approvals then .error .alreadyApproved
  else .ok { p with approvals := p.approvals.orderedInsert (· ≤ ·) member }

inductive PayoutPolicy where
  | rotation (order : List Address) (next : U32)
  | accumulate (rules : ShareRules)
deriving DecidableEq

structure Contribution where
  amount : Amount
  denom : Denom
  periodBlocks : U64
deriving DecidableEq

structure Quorum where
  numerator : U32
  denominator : U32
deriving DecidableEq

def Quorum.validate (q : Quorum) : Except GroupError Quorum :=
  if q.denominator = 0 ∨ q.numerator > q.denominator ∨ q.numerator = 0 then
    .error (.invalidQuorum q.numerator q.denominator)
  else .ok q

def Quorum.requiredOf (q : Quorum) (total : Nat) : Nat :=
  if q.denominator = 0 then total
  else min ((total * q.numerator.val + q.denominator.val - 1) / q.denominator.val) total

/-! ## The group record -/

structure GroupAccount where
  name : String
  members : List Member
  contribution : Contribution
  policy : PayoutPolicy
  quorum : Quorum
  cycle : U64
  cycleStarted : Height
  round : U64
  roundStartCycle : U64
  socialFund : Amount
  pending : Option GroupProposal
deriving DecidableEq

/-- `iter_mut().find(p)` followed by an update of the element found. -/
def updateFirst {α β ε : Type} (p : α → Bool) (missing : ε) (f : α → Except ε (α × β)) :
    List α → Except ε (List α × β)
  | [] => .error missing
  | a :: rest =>
    if p a then do
      let (a', b) ← f a
      return (a' :: rest, b)
    else do
      let (rest', b) ← updateFirst p missing f rest
      return (a :: rest', b)

def sortDedup (l : List Address) : List Address := (l.insertionSort (· ≤ ·)).destutter (· ≠ ·)

theorem mem_sortDedup {l : List Address} {a : Address} : a ∈ sortDedup l ↔ a ∈ l := by
  have hs : (l.insertionSort (· ≤ ·)).Pairwise (· ≤ ·) := List.pairwise_insertionSort _ l
  rw [sortDedup, hs.destutter_eq_dedup, List.mem_dedup, (List.perm_insertionSort _ l).mem_iff]

namespace GroupAccount

/-- The rotation order is a permutation of the membership and `next` points into it. -/
def checkRotation (members : List Member) (order : List Address) (next : U32) : Except GroupError Unit :=
  let seen := sortDedup (members.map (·.address))
  if order.length ≠ members.length then .error .invalidRotationOrder
  else if (sortDedup order).length ≠ order.length ∨ sortDedup order ≠ seen then .error .invalidRotationOrder
  else if next.val ≥ order.length then .error .invalidRotationOrder
  else .ok ()

def checkPolicy (members : List Member) : PayoutPolicy → Except GroupError Unit
  | .rotation order next => checkRotation members order next
  | .accumulate rules => do
    rules.validate
    if rules.requiredGuarantors.val ≥ members.length then
      throw (.invalidShareRules "more guarantors required than the group has other members")

def new (name : String) (members : List Member) (contribution : Contribution) (policy : PayoutPolicy)
    (quorum : Quorum) (openedAt : Height) : Except GroupError GroupAccount := do
  if name.utf8ByteSize = 0 ∨ name.utf8ByteSize > 64 then throw .invalidName
  if members.length < 2 then throw (.tooFewMembers members.length)
  if members.length > MAX_GROUP_MEMBERS then throw (.tooManyMembers members.length)
  if contribution.amount.isZero then throw .zeroContribution
  if (sortDedup (members.map (·.address))).length ≠ members.length then throw .duplicateMember
  let treasurers := (members.filter (·.role == .treasurer)).length
  if treasurers ≠ 1 then throw (.treasurerCount treasurers)
  let quorum ← quorum.validate
  checkPolicy members policy
  return { name, members, contribution, policy, quorum, cycle := 0, cycleStarted := openedAt, round := 0,
           roundStartCycle := 0, socialFund := 0, pending := none }

def member (g : GroupAccount) (address : Address) : Option Member :=
  g.members.find? (·.address == address)

def isMember (g : GroupAccount) (address : Address) : Bool := (g.member address).isSome

def updateMember {β : Type} (g : GroupAccount) (address : Address)
    (f : Member → Except GroupError (Member × β)) : Except GroupError (GroupAccount × β) := do
  let (members, b) ← updateFirst (·.address == address) .notAMember f g.members
  return ({ g with members }, b)

def recordContribution (g : GroupAccount) (address : Address) : Except GroupError GroupAccount := do
  let (g, _) ← g.updateMember address fun m =>
    if m.hasPaid g.cycle then .error .alreadyContributed
    else .ok ({ m with contributionsMade := m.contributionsMade.saturatingAdd 1,
                       lastPaidCycle := some g.cycle }, ())
  return g

def shareRules (g : GroupAccount) : Option ShareRules :=
  match g.policy with
  | .accumulate rules => some rules
  | .rotation .. => none

def requireShareRules (g : GroupAccount) : Except GroupError ShareRules :=
  match g.shareRules with
  | some rules => .ok rules
  | none => .error .notAccumulating

def totalShares (g : GroupAccount) : U64 := g.members.foldl (fun sum m => sum.saturatingAdd m.shares) 0

def cyclesThisRound (g : GroupAccount) : U64 := g.cycle.saturatingSub g.roundStartCycle

def roundComplete (g : GroupAccount) : Bool :=
  g.shareRules.any fun rules => rules.cyclesPerRound ≤ g.cyclesThisRound

def roundEndsAtCycle (g : GroupAccount) : U64 :=
  match g.shareRules with
  | some rules => g.roundStartCycle.saturatingAdd rules.cyclesPerRound
  | none => g.cycle

def checkTermFits (g : GroupAccount) (rules : ShareRules) : Except GroupError U64 :=
  let due := g.cycle.saturatingAdd rules.loanTermCycles
  if due > g.roundEndsAtCycle then .error (.tooLateInRound due g.roundEndsAtCycle) else .ok due

def buyShares (g : GroupAccount) (address : Address) (shares : U32) :
    Except GroupError (GroupAccount × Amount) := do
  let rules ← g.requireShareRules
  if shares = 0 then throw .zeroShares
  g.updateMember address fun m => do
    let after := m.sharesThisCycle.saturatingAdd shares
    if after > rules.maxShares then throw (.shareLimit rules.maxShares after)
    let cost ← orOverflow (g.contribution.amount.checkedMul (u32To128 shares))
    let m := { m with sharesThisCycle := after, shares := m.shares.saturatingAdd (u32To64 shares) }
    -- the floor marks the cycle paid, at most once
    if rules.minShares ≤ after ∧ !m.hasPaid g.cycle then
      return ({ m with contributionsMade := m.contributionsMade.saturatingAdd 1,
                       lastPaidCycle := some g.cycle }, cost)
    else return (m, cost)

def paySocial (g : GroupAccount) (address : Address) : Except GroupError (GroupAccount × Amount) := do
  let rules ← g.requireShareRules
  let amount := rules.socialContribution
  if amount.isZero then throw .socialFundShort
  let (g, _) ← g.updateMember address fun m =>
    if m.hasPaidSocial g.cycle then .error .alreadyContributed
    else .ok ({ m with socialPaidCycle := some g.cycle }, ())
  let socialFund ← orOverflow (g.socialFund.checkedAdd amount)
  return ({ g with socialFund }, amount)

def lendable (g : GroupAccount) (balance : Amount) : Except GroupError Amount :=
  orOverflow (balance.checkedSub g.socialFund)

/-- Every guarantor is a different member, and none is the borrower. -/
def checkGuarantors (g : GroupAccount) (borrower : Address) (guarantors : List Address) (required : U32) :
    Except GroupError Unit :=
  let got : U32 := ⟨min guarantors.length (2 ^ 32 - 1), by omega⟩
  if got ≠ required then .error (.guarantorCount required got)
  else if (sortDedup guarantors).length ≠ guarantors.length then .error .badGuarantor
  else if guarantors.any fun a => a == borrower || !g.isMember a then .error .badGuarantor
  else .ok ()

def openProposal (g : GroupAccount) (beneficiary : Address) (kind : GroupProposalKind) (balance : Amount) :
    Except GroupError GroupAccount := do
  let rules ← g.requireShareRules
  if g.pending.isSome then throw .proposalPending
  let some member := g.member beneficiary | throw .notAMember
  match kind with
  | .loan principal guarantors =>
    if principal.isZero then throw .zeroContribution
    if member.loan.isSome then throw .alreadyBorrowing
    let held ← orOverflow (g.contribution.amount.checkedMul (u64To128 member.shares))
    let required ← rules.coverRequiredFor principal
    if held < required then throw (.insufficientCover (toString required.units) (toString held.units))
    g.checkGuarantors beneficiary guarantors rules.requiredGuarantors
    let _ ← g.checkTermFits rules
    let lendable ← g.lendable balance
    if lendable < principal then throw .loanFundShort
  | .socialGrant amount =>
    if amount.isZero then throw .zeroContribution
    if amount > g.socialFund then throw .socialFundShort
  return { g with pending := some { beneficiary, kind, approvals := [], openedCycle := g.cycle } }

def approvalsRequired (g : GroupAccount) : Nat := g.quorum.requiredOf g.members.length

def approve (g : GroupAccount) (member : Address) : Except GroupError (GroupAccount × Bool) := do
  if !g.isMember member then throw .notAMember
  let some proposal := g.pending | throw .noProposal
  let proposal ← proposal.approve member
  return ({ g with pending := some proposal }, g.approvalsRequired ≤ proposal.approvals.length)

def issueLoan (g : GroupAccount) (balance : Amount) :
    Except GroupError (GroupAccount × Address × Amount) := do
  let rules ← g.requireShareRules
  let some proposal := g.pending | throw .noProposal
  let .loan principal guarantors := proposal.kind | throw .noProposal
  let borrower := proposal.beneficiary
  let lendable ← g.lendable balance
  if lendable < principal then throw .loanFundShort
  g.checkGuarantors borrower guarantors rules.requiredGuarantors
  let serviceCharge ← rules.serviceChargeOn principal
  let dueCycle ← g.checkTermFits rules
  let required ← rules.coverRequiredFor principal
  let (g', _) ← g.updateMember borrower fun m => do
    if m.loan.isSome then throw .alreadyBorrowing
    let held ← orOverflow (g.contribution.amount.checkedMul (u64To128 m.shares))
    if held < required then throw (.insufficientCover (toString required.units) (toString held.units))
    return ({ m with loan := some { principal, serviceCharge, repaid := 0, dueCycle, guarantors,
                                    fined := false } }, ())
  return ({ g' with pending := none }, borrower, principal)

def issueGrant (g : GroupAccount) : Except GroupError (GroupAccount × Address × Amount) := do
  let some proposal := g.pending | throw .noProposal
  let .socialGrant amount := proposal.kind | throw .noProposal
  match g.socialFund.checkedSub amount with
  | .ok socialFund => return ({ g with socialFund, pending := none }, proposal.beneficiary, amount)
  | .error _ => throw .socialFundShort

def repay (g : GroupAccount) (address : Address) (amount : Amount) : Except GroupError GroupAccount := do
  if amount.isZero then throw .zeroContribution
  let (g, _) ← g.updateMember address fun m => do
    let some loan := m.loan | throw .noLoan
    let owed ← loan.outstanding
    if amount > owed then throw (.overpayment (toString owed.units))
    let repaid ← orOverflow (loan.repaid.checkedAdd amount)
    let loan := { loan with repaid }
    if loan.isSettled then
      return ({ m with loan := none, loansRepaid := m.loansRepaid.saturatingAdd 1 }, ())
    else return ({ m with loan := some loan }, ())
  return g

/-- One member's part of a share-out: the record reset for the next round and the net payment. -/
def settleMember (fund : Amount) (total : U64) (m : Member) : Except GroupError (Member × Amount) := do
  let gross ← orOverflow (fund.mulRatio (u64To128 m.shares) (u64To128 total))
  let owed ← m.owed
  let net : Amount := Fin.saturatingSub gross owed
  let defaulted := if m.loan.isSome then m.loansDefaulted.saturatingAdd 1 else m.loansDefaulted
  return ({ m with loansDefaulted := defaulted, loan := none, finesOwed := 0, shares := 0,
                   sharesThisCycle := 0 }, net)

def settleMembers (fund : Amount) (total : U64) :
    List Member → Except GroupError (List Member × List (Address × Amount))
  | [] => .ok ([], [])
  | m :: rest => do
    let (m', net) ← settleMember fund total m
    let (rest', payments) ← settleMembers fund total rest
    return (m' :: rest', if net.isZero then payments else (m.address, net) :: payments)

def shareOut (g : GroupAccount) (fund : Amount) :
    Except GroupError (GroupAccount × List (Address × Amount)) := do
  let rules ← g.requireShareRules
  if !g.roundComplete then throw (.roundNotComplete g.cyclesThisRound rules.cyclesPerRound)
  if fund.isZero then throw .emptyFund
  let total := g.totalShares
  if total = 0 then throw .noShares
  let (members, payments) ← settleMembers fund total g.members
  return ({ g with members, round := g.round.saturatingAdd 1, roundStartCycle := g.cycle, pending := none },
    payments)

def everyoneHasPaid (g : GroupAccount) : Bool := g.members.all (·.hasPaid g.cycle)

def periodEnds (g : GroupAccount) : Height := Fin.saturatingAdd g.cycleStarted g.contribution.periodBlocks

def payoutDue (g : GroupAccount) (now : Height) : Bool := g.everyoneHasPaid || g.periodEnds ≤ now

def nextRecipient (g : GroupAccount) : Option Address :=
  match g.policy with
  | .rotation order next => order[next.val]?
  | .accumulate _ => none

/-- The late fine is levied once, on what is outstanding when the term has run out. -/
def levyFine (lateFineBps : Option U32) (closing : U64) (m : Member) : Member :=
  match lateFineBps, m.loan with
  | some bps, some loan =>
    if !loan.fined && loan.isOverdue closing then
      match loan.outstanding.bind fun o => orOverflow (o.mulRatio (u32To128 bps) (u32To128 BPS_DENOMINATOR)) with
      | .ok fine => { m with loan := some { loan with fined := true },
                             finesOwed := Fin.saturatingAdd m.finesOwed fine }
      | .error _ => m
    else m
  | _, _ => m

def closeMember (lateFineBps : Option U32) (closing : U64) (m : Member) : Member :=
  let missed := if m.hasPaid closing then m.contributionsMissed else m.contributionsMissed.saturatingAdd 1
  levyFine lateFineBps closing { m with contributionsMissed := missed, sharesThisCycle := 0 }

def advancePolicy : PayoutPolicy → PayoutPolicy
  | .rotation order next =>
    let len := max (if order.length < 2 ^ 32 then order.length else 1) 1
    .rotation order ⟨(next.saturatingAdd 1).val % len,
      Nat.lt_of_le_of_lt (Nat.mod_le _ _) (next.saturatingAdd 1).isLt⟩
  | p => p

def advanceCycle (g : GroupAccount) (at_ : Height) : GroupAccount :=
  let closing := g.cycle
  let lapsed := g.pending.any fun p => p.openedCycle ≤ closing
  { g with
    members := g.members.map (closeMember (g.shareRules.map (·.lateFineBps)) closing)
    pending := if lapsed then none else g.pending
    cycleStarted := at_
    cycle := g.cycle.saturatingAdd 1
    policy := advancePolicy g.policy }

end GroupAccount

end AfroLink
