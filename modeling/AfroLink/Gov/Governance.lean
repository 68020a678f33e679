import AfroLink.State.Store

/-!
# Governance

Proposals by council seats, tallied against the council as it stands, and a timelock
between passing and execution.
-/

namespace AfroLink

def MAX_OPEN_PROPOSALS : Nat := 64

inductive GovError where
  | noCouncil
  | notSeated (account : Address)
  | noSuchProposal (id : U64)
  | alreadyVoted (id : U64)
  | votingClosed (id ended now : U64)
  | alreadyPassed (id : U64)
  | notScheduled (id : U64)
  | timelocked (id executableAt now : U64)
  | tooManyProposals
  | proposal (e : ProposalError)
  | council (e : CouncilError)
  | param (e : ParamError)
  | corrupt (text : String)
deriving DecidableEq

inductive GovVoteOutcome where
  | recorded
  | scheduled (height : Height)
  | withdrew (proposal : U64)
deriving DecidableEq

namespace Governance

abbrev M (α : Type) := StoreM GovError α

def corruptState (e : StateError) : GovError := .corrupt e.text

def params : M ChainParams := do return (← getDecoded corruptState .params).getD {}

def council : M (Option Council) := getDecoded corruptState .council

def proposal (id : U64) : M (Option GovProposal) := getDecoded corruptState (.proposal id)

def queue : M ProposalQueue := do return (← getDecoded corruptState .proposalIndex).getD {}

def requireCouncil : M Council := do
  match ← council with
  | some c => return c
  | none => throw .noCouncil

def requireProposal (id : U64) : M GovProposal := do
  match ← proposal id with
  | some p => return p
  | none => throw (.noSuchProposal id)

def install (c : Council) (p : ChainParams) : M Unit := do
  liftResult .param p.validate
  liftResult .council (c.checkConcentration p.maxCouncilCountryShareBps)
  setEncoded .params p
  setEncoded .council c

def setCouncil (c : Council) : M Unit := do
  let p ← params
  liftResult .council (c.checkConcentration p.maxCouncilCountryShareBps)
  setEncoded .council c

def setParams (p : ChainParams) : M Unit := do
  let current ← params
  liftResult .param (p.validateChangeFrom current)
  match ← council with
  | some c => liftResult .council (c.checkConcentration p.maxCouncilCountryShareBps)
  | none => pure ()
  setEncoded .params p

def remove (id : U64) : M Unit := do
  deleteKey (.proposal id)
  let q ← queue
  setEncoded .proposalIndex ({ q with open_ := q.open_.filter (· ≠ id) } : ProposalQueue)

/-- The ids still open; records whose voting ended without passing are deleted on the way. -/
def sweepIds (now : Height) : List U64 → M (List U64)
  | [] => return []
  | id :: rest => do
    match ← proposal id with
    | some p =>
      if p.scheduledFor.isSome || now ≤ p.votingEnds then
        let kept ← sweepIds now rest
        return id :: kept
      else
        deleteKey (.proposal id)
        sweepIds now rest
    | none => sweepIds now rest

def sweepLapsed (now : Height) : M ProposalQueue := do
  let q ← queue
  let kept ← sweepIds now q.open_
  let q := { q with open_ := kept }
  setEncoded .proposalIndex q
  return q

/-- What can be checked of an action before a vote is spent on it. -/
def checkAction : GovAction → M Unit
  | .setCouncil proposed => do
    let p ← params
    liftResult .council (proposed.checkConcentration p.maxCouncilCountryShareBps)
  | .setParams proposed => do
    let p ← params
    liftResult .param (proposed.validateChangeFrom p)
  | .cancel id => do
    let target ← requireProposal id
    if target.scheduledFor.isNone then throw (.proposal (.notCancellable id))
  | _ => pure ()

def propose (sender : Address) (action : GovAction) (now : Height) : M U64 := do
  let c ← requireCouncil
  if !c.isSeated sender then throw (.notSeated sender)
  liftResult .proposal action.validate
  checkAction action
  let q ← sweepLapsed now
  if q.open_.length ≥ MAX_OPEN_PROPOSALS then throw .tooManyProposals
  let p ← params
  let id := q.nextId
  setEncoded .proposalIndex ({ nextId := q.nextId.saturatingAdd 1, open_ := q.open_ ++ [id] } : ProposalQueue)
  setEncoded (.proposal id)
    (⟨id, sender, action, now, Fin.saturatingAdd now p.votingPeriodBlocks, [], none⟩ : GovProposal)
  return id

def tally (c : Council) (votes : List Address) : Nat := (votes.map fun seat => (c.weightOf seat).val).sum

def vote (sender : Address) (id : U64) (now : Height) : M GovVoteOutcome := do
  let c ← requireCouncil
  if !c.isSeated sender then throw (.notSeated sender)
  let p ← requireProposal id
  if p.scheduledFor.isSome then throw (.alreadyPassed id)
  if now > p.votingEnds then throw (.votingClosed id p.votingEnds now)
  match p.recordVote sender with
  | none => throw (.alreadyVoted id)
  | some p =>
    if !c.reached (tally c p.votes) then
      setEncoded (.proposal id) p
      return .recorded
    match p.action with
    | .cancel target =>
      -- a withdrawal takes effect at once
      remove target
      remove id
      return .withdrew target
    | _ =>
      let ps ← params
      let scheduled : Height := Fin.saturatingAdd now ps.timelockBlocks
      setEncoded (.proposal id) ({ p with scheduledFor := some scheduled } : GovProposal)
      return .scheduled scheduled

def execute (id : U64) (now : Height) : M GovAction := do
  let p ← requireProposal id
  match p.scheduledFor with
  | none => throw (.notScheduled id)
  | some executableAt =>
    if now < executableAt then throw (.timelocked id executableAt now)
    remove id
    return p.action

end Governance

end AfroLink
