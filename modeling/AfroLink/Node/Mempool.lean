import AfroLink.Executor.Block

/-!
# The mempool

Pending transactions, keyed by sender and nonce so that each sender's queue is walked in nonce order.
-/

namespace AfroLink

structure MempoolLimits where
  maxTransactions : Nat := 20000
  maxBytes : Nat := 32 * 1024 * 1024
  maxPerSender : Nat := 64
deriving DecidableEq

inductive Rejected where
  | duplicate
  | nonceClaimed (nonce : U64)
  | nonceTooLow (got expected : U64)
  | full
  | senderFull (held : Nat)
  | tooLarge
  | invalid (e : TxError)
  | unauthorised
  | sponsorUnauthorised

instance : Ord (Address × U64) := lexOrd

structure Mempool where
  byKey : Std.TreeMap (Address × U64) Transaction
  byId : Std.TreeMap Hash32 (Address × U64)
  perSender : Std.TreeMap Address Nat
  bytes : Nat
  limits : MempoolLimits

namespace Mempool

def new (limits : MempoolLimits) : Mempool :=
  { byKey := ∅, byId := ∅, perSender := ∅, bytes := 0, limits }

variable [Crypto]

def insert (m : Mempool) (t : Transaction) (chainId : ChainId) (height : Height) (senderAccount : Account)
    (feePayerAccount : Option Account) : Except Rejected (Mempool × Hash32) := do
  let sender := t.body.sender
  let nonce := t.body.nonce
  if nonce < senderAccount.nonce then throw (.nonceTooLow nonce senderAccount.nonce)
  if m.byKey.contains (sender, nonce) then throw (.nonceClaimed nonce)
  if m.byKey.size ≥ m.limits.maxTransactions then throw .full
  let held := m.perSender.getD sender 0
  if held ≥ m.limits.maxPerSender then throw (.senderFull held)
  if (encode t).length > MAX_BLOCK_BYTES then throw .tooLarge
  let bytes := m.bytes + (encode t).length
  if bytes > m.limits.maxBytes then throw .full
  match t.verifyStateless chainId height with
  | .error e => throw (.invalid e)
  | .ok _ => pure ()
  if !senderAccount.authorises t.signingKeys then throw .unauthorised
  if t.body.fee.isSponsored && !feePayerAccount.any (·.authorises t.sponsorKeys) then
    throw .sponsorUnauthorised
  if m.byId.contains t.id then throw .duplicate
  return ⟨{ m with byKey := m.byKey.insert (sender, nonce) t, byId := m.byId.insert t.id (sender, nonce),
                   perSender := m.perSender.insert sender (held + 1), bytes }, t.id⟩

/-- The walk of `select` over the queue in key order. `wanted` is the sender being walked and the nonce
awaited from it, `none` after a gap; a full block ends the walk. -/
def selectFrom (nextNonce : Address → U64) :
    List ((Address × U64) × Transaction) → (wanted : Option (Address × Option U64)) → (count bytes : Nat) →
      List Transaction
  | [], _, _, _ => []
  | ((sender, nonce), t) :: rest, wanted, count, bytes =>
    let want := match wanted with
      | some (current, want) => if current = sender then want else some (nextNonce sender)
      | none => some (nextNonce sender)
    match want with
    | none => selectFrom nextNonce rest wanted count bytes
    | some want =>
      if nonce ≠ want then selectFrom nextNonce rest (some (sender, none)) count bytes
      else
        let size := (encode t).length
        if count ≥ MAX_BLOCK_TRANSACTIONS ∨ bytes + size > MAX_BLOCK_BYTES then []
        else t :: selectFrom nextNonce rest (some (sender, some (want.saturatingAdd 1))) (count + 1) (bytes + size)

def select (m : Mempool) (nextNonce : Address → U64) : List Transaction :=
  selectFrom nextNonce m.byKey.toList none 0 0

def removeKey (m : Mempool) (key : Address × U64) : Mempool :=
  match m.byKey[key]? with
  | none => m
  | some t =>
    let perSender := match m.perSender[key.1]? with
      | none => m.perSender
      | some count => if count - 1 = 0 then m.perSender.erase key.1 else m.perSender.insert key.1 (count - 1)
    { m with byKey := m.byKey.erase key, byId := m.byId.erase t.id, perSender,
             bytes := m.bytes - (encode t).length }

def removeCommitted (m : Mempool) (transactions : List Transaction) : Mempool :=
  transactions.foldl (fun m t => m.removeKey (t.body.sender, t.body.nonce)) m

def evictExpired (m : Mempool) (height : Height) : Mempool :=
  let stale := (m.byKey.toList.filter fun e => height > e.2.body.validUntil).map (·.1)
  stale.foldl removeKey m

end Mempool

end AfroLink
