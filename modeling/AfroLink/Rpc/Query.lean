import AfroLink.State.MemoryStore

/-!
# Queries

What a client asks of a node. A query about the state names one key, and is answered with the value under it and a
proof.
-/

namespace AfroLink

inductive Query where
  | status
  | header (height : Height)
  | balance (address : Address) (denom : Denom)
  | account (address : Address)
  | supply (denom : Denom)
  | issuer (denom : Denom)
  | frozen (denom : Denom) (address : Address)
  | resolveName (name : Username)
  | resolveContact (commitment : ContactCommitment)
  | primaryAlias (address : Address)
  | block (height : Height)
  | transaction (id : Hash32)
  | history (address : Address) (from_ : Height) (limit : U32)

def Query.storeKey : Query → Option StoreKey
  | status | header _ | block _ | transaction _ | history .. => none
  | balance address denom => some (.balance address denom)
  | account address => some (.account address)
  | supply denom => some (.supply denom)
  | issuer denom => some (.issuer denom)
  | frozen denom address => some (.frozen denom address)
  | resolveName name => some (.aliasName name.asStr)
  | resolveContact commitment => some (.contact commitment.asHash)
  | primaryAlias address => some (.aliasReverse address)

/-- A value of the state, the height it is the value at, and the proof. -/
structure ProvedValue where
  height : Height
  value : Option Bytes
  proof : Smt.Proof

end AfroLink
