import AfroLink.Base.Effect
import AfroLink.Types.Tx
import AfroLink.Bank.Issuer
import AfroLink.Staking.Bond

/-!
# The state store

The key-value store seen through the constructors of `StoreKey`: each key names the type of
record it holds. A cell is a value that was encoded into it, or bytes that no decoder of
that type accepts; `getDecoded` runs the decoder's own checks on what it finds.
-/

namespace AfroLink

inductive StoreKey where
  | account (address : Address)
  | balance (address : Address) (denom : Denom)
  | supply (denom : Denom)
  | issuer (denom : Denom)
  | frozen (denom : Denom) (address : Address)
  | aliasName (name : String)
  | aliasSkeleton (skeleton : String)
  | aliasReverse (address : Address)
  | contact (commitment : Hash32)
  | attestor (address : Address)
  | bond (operator : Address)
  | unbonding (operator : Address)
  | bondIndex
  | params
  | council
  | proposal (id : U64)
  | proposalIndex
deriving DecidableEq

namespace StoreKey

def parts : StoreKey → U8 × List Bytes
  | account address => (0x01, [address.asBytes])
  | balance address denom => (0x02, [address.asBytes, utf8Bytes denom.asStr])
  | supply denom => (0x03, [utf8Bytes denom.asStr])
  | issuer denom => (0x04, [utf8Bytes denom.asStr])
  | bond operator => (0x05, [operator.asBytes])
  | params => (0x07, [])
  | frozen denom address => (0x09, [utf8Bytes denom.asStr, address.asBytes])
  | aliasName name => (0x0a, [utf8Bytes name])
  | aliasSkeleton skeleton => (0x0b, [utf8Bytes skeleton])
  | aliasReverse address => (0x0c, [address.asBytes])
  | contact commitment => (0x0d, [commitment.asBytes])
  | attestor address => (0x0e, [address.asBytes])
  | unbonding operator => (0x0f, [operator.asBytes])
  | bondIndex => (0x10, [])
  | council => (0x11, [])
  | proposal id => (0x12, [leBytes 8 id.val])
  | proposalIndex => (0x13, [])

def asBytes (k : StoreKey) : Bytes := k.parts.1 :: k.parts.2.flatMap encodeBytes

def hexDigit (n : Nat) : Char := if n < 10 then Char.ofNat (48 + n) else Char.ofNat (87 + n)

def hexOf (bytes : Bytes) : String :=
  String.ofList (bytes.flatMap fun b => [hexDigit (b.val / 16), hexDigit (b.val % 16)])

abbrev Value : StoreKey → Type
  | account _ => Account
  | balance .. => Amount
  | supply _ => Amount
  | issuer _ => Issuer
  | frozen .. => U8
  | aliasName _ => NameRecord
  | aliasSkeleton _ => String
  | aliasReverse _ => String
  | contact _ => ContactRecord
  | attestor _ => Attestor
  | bond _ => Bond
  | unbonding _ => List Unbonding
  | bondIndex => List Address
  | params => ChainParams
  | council => Council
  | proposal _ => GovProposal
  | proposalIndex => ProposalQueue

/-- The reason the decoder of the record type refuses the encoding of a value. -/
def decodeError : (k : StoreKey) → k.Value → Option String
  | account _, v => v.decodeError
  | issuer _, v => v.decodeError
  | aliasSkeleton _, v => tooLong (utf8Bytes v)
  | aliasReverse _, v => tooLong (utf8Bytes v)
  | attestor _, v => v.decodeError
  | unbonding _, v => tooLong v
  | bondIndex, v => tooLong v
  | proposal _, v => v.decodeError
  | proposalIndex, v => tooLong v.open_
  | _, _ => none

end StoreKey

/-- A value set under a key, or undecodable bytes with the decoder's complaint. -/
inductive Cell (α : Type) where
  | value (v : α)
  | raw (bytes : Bytes) (reason : String)
deriving DecidableEq

def Store := (k : StoreKey) → Option (Cell k.Value)

inductive StateError where
  | corrupt (key reason : String)
deriving DecidableEq, Repr

def StateError.text : StateError → String
  | corrupt key reason => "corrupt state at key " ++ key ++ ": " ++ reason

namespace Store

def empty : Store := fun _ => none

@[ext] theorem ext {s t : Store} (h : ∀ k, s k = t k) : s = t := funext h

def set (s : Store) (k : StoreKey) (v : k.Value) : Store := Function.update s k (some (.value v))

def delete (s : Store) (k : StoreKey) : Store := Function.update s k none

def getDecoded (s : Store) (k : StoreKey) : Except StateError (Option k.Value) :=
  match s k with
  | none => .ok none
  | some (.raw _ reason) => .error (.corrupt (StoreKey.hexOf k.asBytes) reason)
  | some (.value v) =>
    match k.decodeError v with
    | none => .ok (some v)
    | some reason => .error (.corrupt (StoreKey.hexOf k.asBytes) reason)

variable {s : Store} {k k' : StoreKey} {v : k.Value}

@[simp] theorem set_self : (s.set k v) k = some (.value v) := Function.update_self ..

@[simp] theorem set_of_ne (h : k' ≠ k) : (s.set k v) k' = s k' := Function.update_of_ne h ..

@[simp] theorem delete_self : (s.delete k) k = none := Function.update_self ..

@[simp] theorem delete_of_ne (h : k' ≠ k) : (s.delete k) k' = s k' := Function.update_of_ne h ..

theorem getDecoded_congr {t : Store} (h : s k = t k) : s.getDecoded k = t.getDecoded k := by
  simp only [getDecoded, h]

theorem getDecoded_eq_some {w : k.Value} :
    s.getDecoded k = .ok (some w) ↔ s k = some (.value w) ∧ k.decodeError w = none := by
  unfold getDecoded
  split
  · simp_all
  · simp_all
  · rename_i v hv
    split
    · rename_i hd
      simp only [hv, Except.ok.injEq, Option.some.injEq, Cell.value.injEq]
      constructor
      · rintro rfl
        exact ⟨rfl, hd⟩
      · exact And.left
    · rename_i hd
      simp only [reduceCtorEq, hv, Option.some.injEq, Cell.value.injEq, false_iff, not_and]
      rintro rfl
      simp [hd]

theorem getDecoded_eq_none : s.getDecoded k = .ok none ↔ s k = none := by
  unfold getDecoded
  split
  · simp_all
  · simp_all
  · split <;> simp_all

end Store

/-- The store is a trait object to its users; `root` is its commitment to the whole content. -/
class StateRoot where
  root : Store → Hash32

/-- A function taking `&mut store` and returning `Result<α, ε>`. -/
abbrev StoreM (ε α : Type) := EStateM ε Store α

def getDecoded {ε : Type} (wrap : StateError → ε) (k : StoreKey) : StoreM ε (Option k.Value) := do
  liftResult wrap ((← get).getDecoded k)

def setEncoded {ε : Type} (k : StoreKey) (v : k.Value) : StoreM ε Unit := modify fun s => s.set k v

def deleteKey {ε : Type} (k : StoreKey) : StoreM ε Unit := modify fun s => s.delete k

section

variable {ε : Type} {wrap : StateError → ε} {k : StoreKey} {s s' : Store}

-- the type index is left open: at a concrete key it is the record type itself
@[simp] theorem runs_getDecoded {v : Option k.Value} :
    @Runs ε Store (no_index (Option k.Value)) (getDecoded wrap k) s v s' ↔ s.getDecoded k = .ok v ∧ s = s' := by
  simp only [getDecoded, Runs.bind_iff, Runs.get_iff, Runs.liftResult_iff]
  constructor
  · rintro ⟨_, _, ⟨rfl, rfl⟩, h⟩
    exact h
  · intro h
    exact ⟨s, s, ⟨rfl, rfl⟩, h⟩

@[simp] theorem runs_setEncoded {v : k.Value} {u : Unit} :
    Runs (setEncoded k v : StoreM ε Unit) s u s' ↔ s.set k v = s' := by simp [setEncoded]

theorem runs_setEncoded_bind {β : Type} {v : k.Value} {f : Unit → StoreM ε β} {b : β} :
    Runs (setEncoded k v >>= f) s b s' ↔ Runs (f ()) (s.set k v) b s' := Iff.rfl

@[simp] theorem runs_deleteKey {u : Unit} :
    Runs (deleteKey k : StoreM ε Unit) s u s' ↔ s.delete k = s' := by simp [deleteKey]

variable {E : ε → Store → Prop}

@[simp] theorem wp_getDecoded {Q : Option k.Value → Store → Prop} :
    @wp ε Store (no_index (Option k.Value)) (getDecoded wrap k) Q E s ↔
      (∀ v, s.getDecoded k = .ok v → Q v s) ∧ (∀ e, s.getDecoded k = .error e → E (wrap e) s) := by
  simp [getDecoded]

@[simp] theorem wp_setEncoded {v : k.Value} {Q : Unit → Store → Prop} :
    wp (setEncoded k v) Q E s ↔ Q () (s.set k v) := Iff.rfl

@[simp] theorem wp_deleteKey {Q : Unit → Store → Prop} : wp (deleteKey k) Q E s ↔ Q () (s.delete k) := Iff.rfl

end

end AfroLink
