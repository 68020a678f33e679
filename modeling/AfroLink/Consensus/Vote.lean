import AfroLink.Consensus.Validator

/-!
# Votes, vote sets and commit certificates

A `BTreeMap` is a `Std.TreeMap`; `toList` is its iteration order.
-/

open Std

namespace AfroLink

inductive VoteType where
  | prevote | precommit
deriving DecidableEq

structure Vote where
  chainId : ChainId
  height : Height
  round : Round
  voteType : VoteType
  /-- The block voted for; `none` is a nil vote. -/
  blockId : Option Hash32
  validator : Address
deriving DecidableEq

structure SignedVote where
  vote : Vote
  signature : Signature
deriving DecidableEq

structure Equivocation where
  validator : Address
  first : SignedVote
  second : SignedVote
deriving DecidableEq

instance : Encode VoteType where
  encode
    | .prevote => [0]
    | .precommit => [1]

instance : Encode Vote := ⟨fun v => encode v.chainId ++ encode v.height ++ encode v.round ++
  encode v.voteType ++ encode v.blockId ++ encode v.validator⟩

instance : Encode SignedVote := ⟨fun s => encode s.vote ++ encode s.signature⟩

instance : Encode Equivocation := ⟨fun e => encode e.validator ++ encode e.first ++ encode e.second⟩

def Vote.signDoc (v : Vote) : Bytes := encode v

inductive VoteError where
  | wrongSet
  | wrongChain (chain : String)
  | notAValidator
  | invalidSignature
deriving DecidableEq, Repr

inductive VoteOutcome where
  | added
  | duplicate
  | equivocated (evidence : Equivocation)
deriving DecidableEq

structure VoteSet where
  chainId : ChainId
  height : Height
  round : Round
  voteType : VoteType
  votes : TreeMap Address SignedVote
  equivocators : TreeMap Address Equivocation
  powerByValue : TreeMap (Option Hash32) U64
  totalVoted : U64

section

variable [Crypto]

def Vote.sign (v : Vote) (key : SecretKey) : SignedVote :=
  { vote := v, signature := key.sign .voteSignDoc v.signDoc }

def SignedVote.verifies (s : SignedVote) (pk : PublicKey) : Bool :=
  pk.verify .voteSignDoc s.vote.signDoc s.signature

end

namespace VoteSet

def new (chainId : ChainId) (height : Height) (round : Round) (voteType : VoteType) : VoteSet :=
  { chainId, height, round, voteType, votes := ∅, equivocators := ∅, powerByValue := ∅, totalVoted := 0 }

def powerFor (s : VoteSet) (blockId : Option Hash32) : U64 := s.powerByValue.getD blockId 0

def votesFor (s : VoteSet) (blockId : Option Hash32) : List SignedVote :=
  s.votes.values.filter fun v => v.vote.blockId == blockId

def quorumValue (s : VoteSet) (validators : ValidatorSet) : Option (Option Hash32) :=
  (s.powerByValue.toList.find? fun e => validators.hasQuorum e.2).map (·.1)

def hasQuorumAny (s : VoteSet) (validators : ValidatorSet) : Bool := validators.hasQuorum s.totalVoted

/-- A validator's first vote in this set: recorded, and its power credited to the value. -/
def record (s : VoteSet) (power : U64) (signed : SignedVote) : VoteSet :=
  { s with
    votes := s.votes.insert signed.vote.validator signed
    powerByValue := s.powerByValue.insert signed.vote.blockId
      ((s.powerFor signed.vote.blockId).saturatingAdd power)
    totalVoted := s.totalVoted.saturatingAdd power }

/-- A second, different vote: both are withdrawn and the validator is ignored from here on. -/
def withdraw (s : VoteSet) (power : U64) (existing : SignedVote) (evidence : Equivocation) : VoteSet :=
  { s with
    votes := s.votes.erase evidence.validator
    equivocators := s.equivocators.insert evidence.validator evidence
    powerByValue := match s.powerByValue[existing.vote.blockId]? with
      | some slot => s.powerByValue.insert existing.vote.blockId (slot.saturatingSub power)
      | none => s.powerByValue
    totalVoted := s.totalVoted.saturatingSub power }

variable [Crypto]

/-- The checks a vote passes before it is looked at: the set it belongs to and its signature. -/
def checkVote (s : VoteSet) (validators : ValidatorSet) (signed : SignedVote) : Except VoteError Validator :=
  let vote := signed.vote
  if vote.height ≠ s.height ∨ vote.round ≠ s.round ∨ vote.voteType ≠ s.voteType then .error .wrongSet
  else if vote.chainId ≠ s.chainId then .error (.wrongChain vote.chainId.asStr)
  else match validators.get vote.validator with
    | none => .error .notAValidator
    | some validator =>
      if signed.verifies validator.publicKey then .ok validator else .error .invalidSignature

def add (s : VoteSet) (validators : ValidatorSet) (signed : SignedVote) :
    Except VoteError (VoteSet × VoteOutcome) :=
  match s.checkVote validators signed with
  | .error e => .error e
  | .ok validator =>
    if s.equivocators.contains signed.vote.validator then .ok (s, .duplicate)
    else match s.votes[signed.vote.validator]? with
      | some existing =>
        if existing.vote.blockId = signed.vote.blockId then .ok (s, .duplicate)
        else
          let evidence := { validator := signed.vote.validator, first := existing, second := signed }
          .ok (s.withdraw validator.votingPower existing evidence, .equivocated evidence)
      | none => .ok (s.record validator.votingPower signed, .added)

end VoteSet

/-! ## Commit certificates -/

inductive CommitError where
  | empty | mismatchedVote | duplicateSigner | unknownSigner | invalidSignature
  | insufficientPower (got needed : U64)
deriving DecidableEq, Repr

structure Commit where
  height : Height
  round : Round
  blockId : Hash32
  signatures : List SignedVote
deriving DecidableEq

namespace Commit

variable [Crypto]

def tally (c : Commit) (chainId : ChainId) (validators : ValidatorSet) :
    List SignedVote → List Address → U64 → Except CommitError U64
  | [], _, power => .ok power
  | signed :: rest, seen, power =>
    let vote := signed.vote
    if vote.height ≠ c.height ∨ vote.round ≠ c.round ∨ vote.voteType ≠ .precommit ∨
        vote.blockId ≠ some c.blockId ∨ vote.chainId ≠ chainId then .error .mismatchedVote
    else if vote.validator ∈ seen then .error .duplicateSigner
    else match validators.get vote.validator with
      | none => .error .unknownSigner
      | some validator =>
        if signed.verifies validator.publicKey then
          tally c chainId validators rest (vote.validator :: seen) (power.saturatingAdd validator.votingPower)
        else .error .invalidSignature

def verify (c : Commit) (chainId : ChainId) (validators : ValidatorSet) : Except CommitError Unit :=
  if c.signatures = [] then .error .empty
  else match c.tally chainId validators c.signatures [] 0 with
    | .error e => .error e
    | .ok power =>
      if validators.hasQuorum power then .ok ()
      else .error (.insufficientPower power validators.quorumThreshold)

end Commit

end AfroLink
