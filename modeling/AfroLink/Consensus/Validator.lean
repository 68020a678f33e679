import AfroLink.Types.Group

/-!
# Validators and validator sets

A `ValidatorSet` is non-empty, strictly ordered by address, has no member without power,
and its total fits in a `u64`.
-/

namespace AfroLink

structure Validator where
  address : Address
  publicKey : PublicKey
  votingPower : U64
  country : CountryCode
deriving DecidableEq

inductive ValidatorError where
  | empty | duplicate | zeroPower | powerOverflow
deriving DecidableEq, Repr

structure ValidatorSet where
  validators : List Validator
  totalPower : U64
  nonempty : validators ≠ []
  positive : ∀ v ∈ validators, 0 < v.votingPower
  sorted : validators.Pairwise fun a b => a.address < b.address
  total : totalPower.val = (validators.map fun v => v.votingPower.val).sum

def checkedTotal : List Validator → U64 → Option U64
  | [], acc => some acc
  | v :: vs, acc => (acc.checkedAdd v.votingPower).bind (checkedTotal vs)

theorem checkedTotal_eq {l : List Validator} {acc t : U64} (h : checkedTotal l acc = some t) :
    t.val = acc.val + (l.map fun v => v.votingPower.val).sum := by
  induction l generalizing acc with
  | nil => simpa [checkedTotal] using congrArg Fin.val (Option.some.inj h).symm
  | cons v vs ih =>
    obtain ⟨a, ha, ht⟩ := Option.bind_eq_some_iff.1 h
    have := Fin.checkedAdd_eq_some.1 ha
    rw [ih ht, List.map_cons, List.sum_cons, this, Nat.add_assoc]

def sortByAddress (l : List Validator) : List Validator :=
  l.insertionSort fun a b => a.address ≤ b.address

theorem pairwise_lt_of_chain {l : List Validator} (hs : l.Pairwise fun a b => a.address ≤ b.address)
    (hd : l.IsChain fun a b => a.address ≠ b.address) : l.Pairwise fun a b => a.address < b.address := by
  have hc : l.IsChain fun a b => a.address < b.address := by
    refine List.isChain_iff_getElem.2 fun i hi => ?_
    exact lt_of_le_of_ne (List.isChain_iff_getElem.1 hs.isChain i hi) (List.isChain_iff_getElem.1 hd i hi)
  have : IsTrans Validator fun a b => a.address < b.address := ⟨fun _ _ _ => lt_trans⟩
  exact hc.pairwise

namespace ValidatorSet

variable [Crypto]

omit [Crypto] in
theorem sortByAddress_sorted (l : List Validator) :
    (sortByAddress l).Pairwise fun a b => a.address ≤ b.address := by
  have : Std.Total fun a b : Validator => a.address ≤ b.address := ⟨fun a b => le_total _ _⟩
  have : IsTrans Validator fun a b => a.address ≤ b.address := ⟨fun _ _ _ => le_trans⟩
  exact List.pairwise_insertionSort _ l

def new (validators : List Validator) : Except ValidatorError ValidatorSet :=
  if he : validators = [] then .error .empty
  else if hz : validators.any fun v => v.votingPower == 0 then .error .zeroPower
  else if hd : ¬ (sortByAddress validators).IsChain fun a b => a.address ≠ b.address then .error .duplicate
  else match ht : checkedTotal (sortByAddress validators) 0 with
    | none => .error .powerOverflow
    | some totalPower => .ok {
        validators := sortByAddress validators
        totalPower
        nonempty := by
          intro h
          have := List.length_insertionSort (fun a b : Validator => a.address ≤ b.address) validators
          rw [sortByAddress] at h
          rw [h] at this
          exact he (List.length_eq_zero_iff.1 this.symm)
        positive := by
          intro v hv
          have hm := (List.perm_insertionSort (fun a b : Validator => a.address ≤ b.address) validators).mem_iff.1 hv
          simp only [List.any_eq_true, not_exists, not_and, beq_iff_eq] at hz
          exact Fin.pos_iff_ne_zero.2 (hz v hm)
        sorted := pairwise_lt_of_chain (sortByAddress_sorted validators) (not_not.1 hd)
        total := by simpa using checkedTotal_eq ht }

def quorumThreshold (vs : ValidatorSet) : U64 :=
  ⟨min (vs.totalPower.val * 2 / 3 + 1) (2 ^ 64 - 1), by omega⟩

def hasQuorum (vs : ValidatorSet) (power : U64) : Bool := vs.quorumThreshold ≤ power

def maxByzantinePower (vs : ValidatorSet) : U64 :=
  ⟨min ((vs.totalPower.val - 1) / 3) (2 ^ 64 - 1), by omega⟩

def countriesRepresented (vs : ValidatorSet) : Nat := (vs.validators.map (·.country)).dedup.length

def maxSingleShareBps (vs : ValidatorSet) : U32 :=
  if vs.totalPower = 0 then 0
  else
    let largest := (vs.validators.map (·.votingPower)).foldl max 0
    let bps := largest.val * 10000 / vs.totalPower.val
    if h : bps < 2 ^ 32 then ⟨bps, h⟩ else Fin.last _

def get (vs : ValidatorSet) (address : Address) : Option Validator :=
  vs.validators.find? fun v => v.address == address

def powerOf (vs : ValidatorSet) (address : Address) : U64 :=
  match vs.get address with
  | some v => v.votingPower
  | none => 0

def hash (vs : ValidatorSet) : Hash32 :=
  AfroLink.hash .validatorSetHash (vs.validators.flatMap fun v =>
    v.address.asBytes ++ v.publicKey.toBytes ++ leBytes 8 v.votingPower.val ++ [v.country.bytes.1, v.country.bytes.2])

def drawFrom (draw : Nat) : List Validator → Nat → Option Validator
  | [], _ => none
  | v :: rest, cumulative =>
    if draw < cumulative + v.votingPower.val then some v
    else drawFrom draw rest (cumulative + v.votingPower.val)

def proposer (vs : ValidatorSet) (height : Height) (round : Round) : Option Validator :=
  if vs.validators = [] ∨ vs.totalPower = 0 then none
  else
    let seed := hashParts .validatorId [leBytes 8 height.val, leBytes 4 round.val]
    -- the first 8 bytes of the digest, big-endian
    let draw := (seed.val / 2 ^ 192) % vs.totalPower.val
    match drawFrom draw vs.validators 0 with
    | some v => some v
    | none => vs.validators.getLast?

omit [Crypto] in
theorem mem_of_drawFrom {draw cumulative : Nat} {l : List Validator} {v : Validator}
    (h : drawFrom draw l cumulative = some v) : v ∈ l := by
  induction l generalizing cumulative with
  | nil => cases h
  | cons w rest ih =>
    unfold drawFrom at h
    split at h
    · cases h
      exact List.mem_cons_self ..
    · exact List.mem_cons_of_mem w (ih h)

theorem mem_of_proposer {vs : ValidatorSet} {height : Height} {round : Round} {v : Validator}
    (h : vs.proposer height round = some v) : v ∈ vs.validators := by
  unfold proposer at h
  split at h
  · cases h
  · simp only at h
    split at h
    · rename_i hdraw
      cases h
      exact mem_of_drawFrom hdraw
    · exact List.mem_of_getLast? h

end ValidatorSet

variable [Crypto]

def Validator.new (publicKey : PublicKey) (votingPower : U64) (country : CountryCode) : Validator :=
  { address := Address.fromPublicKey publicKey, publicKey, votingPower, country }

end AfroLink
