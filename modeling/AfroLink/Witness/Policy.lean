import AfroLink.Witness.Audit

/-!
# Corroboration

Several witnesses' observations become a checkpoint, or are refused.
-/

namespace AfroLink

structure Checkpoint where
  chainId : ChainId
  height : Height
  blockId : Hash32
deriving DecidableEq

structure Policy where
  minWitnesses : Nat
  minCountries : Nat
deriving DecidableEq

def MAX_CORROBORATION : Nat := 4

namespace Policy

def BASELINE : Policy := ⟨2, 2⟩

/-- One more witness, in one more country, for each trusting period of staleness. -/
def forAge (ageMs trustingPeriodMs : U64) : Policy :=
  -- `checked_div(..).unwrap_or(0)` is division of naturals: by zero it gives zero.
  let periods := ageMs.val / trustingPeriodMs.val
  let extra := min periods (MAX_CORROBORATION - BASELINE.minWitnesses)
  ⟨BASELINE.minWitnesses + extra, BASELINE.minCountries + extra⟩

def satisfiableBy (policy : Policy) (witnesses countries : Nat) : Bool :=
  policy.minWitnesses ≤ witnesses && policy.minCountries ≤ countries

end Policy

def pushNew {α : Type} [DecidableEq α] (values : List α) (value : α) : List α :=
  if value ∈ values then values else values ++ [value]

/-- The height of the first observation that a later one contradicts. -/
def splitView : List Observation → Option Height
  | [] => none
  | a :: rest =>
    if rest.any fun b => a.height = b.height && a.blockId ≠ b.blockId then some a.height else splitView rest

/-- What `corroborate` carries from candidate to candidate. -/
structure Corroboration where
  best : Checkpoint
  found : Bool
  bestWitnesses : Nat
  bestCountries : Nat

def logsAt (observations : List Observation) (height : Height) : List LogId :=
  (observations.filter fun o => o.height = height).foldl (fun logs o => pushNew logs o.log) []

def countriesAt (observations : List Observation) (height : Height) : List (U8 × U8) :=
  (observations.filter fun o => o.height = height).foldl (fun countries o => pushNew countries o.country) []

def Corroboration.consider (chainId : ChainId) (observations : List Observation) (policy : Policy)
    (s : Corroboration) (candidate : Observation) : Corroboration :=
  let logs := logsAt observations candidate.height
  let countries := countriesAt observations candidate.height
  let weighed :=
    { s with
      bestWitnesses := max s.bestWitnesses logs.length
      bestCountries := max s.bestCountries countries.length }
  if policy.satisfiableBy logs.length countries.length && (!s.found || s.best.height < candidate.height) then
    { weighed with best := ⟨chainId, candidate.height, candidate.blockId⟩, found := true }
  else weighed

/-- The highest height that meets the policy; any disagreement refuses the whole set. -/
def corroborate (chainId : ChainId) (observations : List Observation) (policy : Policy) :
    Except WitnessError Checkpoint :=
  match splitView observations with
  | some height => .error (.splitView height)
  | none =>
    let start : Corroboration := ⟨⟨chainId, 0, Hash32.ZERO⟩, false, 0, 0⟩
    let s := observations.foldl (Corroboration.consider chainId observations policy) start
    if s.found then .ok s.best
    else .error (.notCorroborated s.bestWitnesses s.bestCountries policy.minWitnesses policy.minCountries)

end AfroLink
