import AfroLink.Types.Account

/-!
# Bonds and the unbonding queue
-/

namespace AfroLink

structure Bond where
  operator : Address
  publicKey : PublicKey
  country : CountryCode
  bonded : Amount
  jailed : Bool
  jailedAt : Option Height
deriving DecidableEq

def Bond.new (operator : Address) (publicKey : PublicKey) (country : CountryCode) (bonded : Amount) : Bond :=
  { operator, publicKey, country, bonded, jailed := false, jailedAt := none }

structure Unbonding where
  amount : Amount
  startedAt : Height
  completesAt : Timestamp
deriving DecidableEq

def Unbonding.covers (u : Unbonding) (height : Height) : Bool := u.startedAt > height

def Unbonding.matured (u : Unbonding) (now : Timestamp) : Bool := u.completesAt ≤ now

end AfroLink
