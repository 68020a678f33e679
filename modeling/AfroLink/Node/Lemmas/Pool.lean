import AfroLink.Node.Lemmas.Mempool

/-!
# The books of the mempool

The transactions by key, their keys by id, the number each sender has and the bytes of all of them say the same, after
every operation.
-/

open Std (TreeMap)

namespace AfroLink

namespace Mempool

variable {m m' : Mempool} {t : Transaction} {key : Address × U64} {a : Address}

def heldBytes (m : Mempool) : ℕ := (m.byKey.toList.map fun e => (encode e.2).length).sum

def heldBy (m : Mempool) (a : Address) : ℕ := m.byKey.toList.countP fun e => e.1.1 == a

/-- Counts are kept for the senders that hold something, and for no other. -/
def CountsSenders (m : Mempool) : Prop :=
  ∀ a, m.perSender[a]? = if m.heldBy a = 0 then none else some (m.heldBy a)

section

variable [Crypto]

structure Consistent (m : Mempool) : Prop where
  keyed : ∀ (key : Address × U64) (t : Transaction), m.byKey[key]? = some t → t.key = key
  inverse : ∀ (id : Hash32) (key : Address × U64),
    m.byId[id]? = some key ↔ ∃ t : Transaction, m.byKey[key]? = some t ∧ t.id = id
  bytes : m.bytes = m.heldBytes
  senders : m.CountsSenders

/-- The limits are kept, for the pool and for each sender. -/
structure Within (m : Mempool) : Prop where
  transactions : m.byKey.size ≤ m.limits.maxTransactions
  bytes : m.bytes ≤ m.limits.maxBytes
  senders : ∀ a, m.heldBy a ≤ m.limits.maxPerSender

end

theorem heldBytes_of_perm (h : m'.byKey.toList.Perm ((key, t) :: m.byKey.toList)) :
    m'.heldBytes = m.heldBytes + (encode t).length := by
  unfold heldBytes
  rw [(h.map _).sum_eq, List.map_cons, List.sum_cons, Nat.add_comm]

theorem heldBy_of_perm (h : m'.byKey.toList.Perm ((key, t) :: m.byKey.toList)) (a : Address) :
    m'.heldBy a = m.heldBy a + if key.1 = a then 1 else 0 := by
  unfold heldBy
  rw [h.countP_eq, List.countP_cons]
  simp

theorem size_of_perm (h : m'.byKey.toList.Perm ((key, t) :: m.byKey.toList)) : m'.byKey.size = m.byKey.size + 1 := by
  have hlength := h.length_eq
  rwa [List.length_cons, TreeMap.length_toList, TreeMap.length_toList] at hlength

theorem CountsSenders.getD (h : m.CountsSenders) (a : Address) : m.perSender.getD a 0 = m.heldBy a := by
  rw [TreeMap.getD_eq_getD_getElem?, h a]
  split
  · rename_i hzero
    rw [hzero]
    rfl
  · rfl

theorem CountsSenders.insert (hm : m.CountsSenders) (hperm : m'.byKey.toList.Perm ((key, t) :: m.byKey.toList))
    (hsenders : m'.perSender = m.perSender.insert key.1 (m.perSender.getD key.1 0 + 1)) : m'.CountsSenders := by
  intro a
  rw [hsenders, TreeMap.getElem?_insert, heldBy_of_perm hperm, hm.getD]
  by_cases ha : key.1 = a
  · subst ha
    simp
  · rw [if_neg (mt Std.compare_eq_iff_eq.1 ha), if_neg ha]
    exact hm a

variable [Crypto] {chainId : ChainId} {height : Height} {senderAccount : Account} {feePayerAccount : Option Account}
  {id : Hash32}

theorem insert_writes (h : m.insert t chainId height senderAccount feePayerAccount = .ok (m', id)) :
    m.byKey[t.key]? = none ∧ m.byKey.size < m.limits.maxTransactions ∧
      m.perSender.getD t.body.sender 0 < m.limits.maxPerSender ∧ m.bytes + (encode t).length ≤ m.limits.maxBytes ∧
      m.byId[t.id]? = none ∧ senderAccount.authorises t.signingKeys = true ∧ id = t.id ∧
      m' = { m with byKey := m.byKey.insert t.key t, byId := m.byId.insert t.id t.key,
                    perSender := m.perSender.insert t.body.sender (m.perSender.getD t.body.sender 0 + 1),
                    bytes := m.bytes + (encode t).length } := by
  unfold insert at h
  obtain ⟨-, h⟩ := Except.guard_eq_ok.1 h
  obtain ⟨hkey, h⟩ := Except.guard_eq_ok.1 h
  obtain ⟨hsize, h⟩ := Except.guard_eq_ok.1 h
  obtain ⟨hheld, h⟩ := Except.guard_eq_ok.1 h
  obtain ⟨-, h⟩ := Except.guard_eq_ok.1 h
  obtain ⟨hbytes, h⟩ := Except.guard_eq_ok.1 h
  dsimp only at h
  split at h
  · cases h
  obtain ⟨hauth, h⟩ := Except.guard_eq_ok.1 h
  obtain ⟨-, h⟩ := Except.guard_eq_ok.1 h
  obtain ⟨hid, h⟩ := Except.guard_eq_ok.1 h
  cases h
  refine ⟨?_, not_le.1 hsize, not_le.1 hheld, not_lt.1 hbytes, ?_, by simpa using hauth, rfl, rfl⟩
  · exact (getElem?_eq_none_iff _ _).2 hkey
  · exact (getElem?_eq_none_iff _ _).2 hid

theorem insert_consistent (hm : m.Consistent)
    (h : m.insert t chainId height senderAccount feePayerAccount = .ok (m', id)) : m'.Consistent := by
  obtain ⟨hkey, -, -, -, hid, -, -, rfl⟩ := insert_writes h
  have hperm := TreeMap.perm_toList_insert (v := t) hkey
  refine ⟨fun key u hu => ?_, fun id key => ?_, ?_, hm.senders.insert hperm rfl⟩
  · simp only [TreeMap.getElem?_insert, Std.compare_eq_iff_eq] at hu
    split at hu
    · rename_i heq
      cases hu
      exact heq
    · exact hm.keyed key u hu
  · simp only [TreeMap.getElem?_insert, Std.compare_eq_iff_eq]
    by_cases hi : t.id = id <;> by_cases hk : t.key = key
    · rw [if_pos hi, if_pos hk]
      exact ⟨fun _ => ⟨t, rfl, hi⟩, fun _ => congrArg some hk⟩
    · rw [if_pos hi, if_neg hk, ← hm.inverse, ← hi, hid]
      simp [hk]
    · rw [if_neg hi, if_pos hk, hm.inverse, ← hk, hkey]
      simp [hi]
    · rw [if_neg hi, if_neg hk]
      exact hm.inverse id key
  · rw [heldBytes_of_perm hperm, ← hm.bytes]

theorem insert_within (hm : m.Consistent) (hw : m.Within)
    (h : m.insert t chainId height senderAccount feePayerAccount = .ok (m', id)) : m'.Within := by
  obtain ⟨hkey, hsize, hheld, hbytes, -, -, -, rfl⟩ := insert_writes h
  have hperm := TreeMap.perm_toList_insert (v := t) hkey
  refine ⟨?_, hbytes, fun a => ?_⟩
  · rw [size_of_perm hperm]
    exact hsize
  · rw [heldBy_of_perm hperm]
    rw [hm.senders.getD] at hheld
    split
    · rename_i ha
      subst ha
      exact hheld
    · exact hw.senders a

theorem removeKey_of_none (h : m.byKey[key]? = none) : m.removeKey key = m := by
  unfold removeKey
  rw [h]

theorem removeKey_of_some (h : m.byKey[key]? = some t) :
    (m.removeKey key).byKey = m.byKey.erase key ∧ (m.removeKey key).byId = m.byId.erase t.id ∧
      (m.removeKey key).bytes = m.bytes - (encode t).length ∧
      ∀ count, m.perSender[key.1]? = some count → (m.removeKey key).perSender =
        if count - 1 = 0 then m.perSender.erase key.1 else m.perSender.insert key.1 (count - 1) := by
  unfold removeKey
  rw [h]
  refine ⟨rfl, rfl, rfl, fun count hcount => ?_⟩
  simp only [hcount]

@[simp] theorem removeKey_limits (m : Mempool) (key : Address × U64) : (m.removeKey key).limits = m.limits := by
  unfold removeKey
  split <;> rfl

theorem removeKey_perm (h : m.byKey[key]? = some t) :
    m.byKey.toList.Perm ((key, t) :: (m.removeKey key).byKey.toList) := by
  rw [(removeKey_of_some h).1]
  exact TreeMap.perm_toList_erase h

theorem removeKey_senders (hm : m.CountsSenders) (h : m.byKey[key]? = some t) : (m.removeKey key).CountsSenders := by
  have hheld := heldBy_of_perm (removeKey_perm h)
  have hone : m.heldBy key.1 = (m.removeKey key).heldBy key.1 + 1 := by
    rw [hheld, if_pos rfl]
  have hcount : m.perSender[key.1]? = some (m.heldBy key.1) := by
    rw [hm, if_neg (by omega)]
  intro a
  rw [(removeKey_of_some h).2.2.2 _ hcount, hone, Nat.add_sub_cancel]
  by_cases ha : key.1 = a
  · subst ha
    split
    · rw [TreeMap.getElem?_erase_self]
    · rw [TreeMap.getElem?_insert_self]
  · have hother : m.heldBy a = (m.removeKey key).heldBy a := by
      rw [hheld, if_neg ha, Nat.add_zero]
    have hcmp : ¬ compare key.1 a = .eq := mt Std.compare_eq_iff_eq.1 ha
    rw [← hother, ← hm a]
    split
    · rw [TreeMap.getElem?_erase, if_neg hcmp]
    · rw [TreeMap.getElem?_insert, if_neg hcmp]

theorem removeKey_consistent (hm : m.Consistent) (key : Address × U64) : (m.removeKey key).Consistent := by
  cases h : m.byKey[key]? with
  | none =>
    rw [removeKey_of_none h]
    exact hm
  | some t =>
    obtain ⟨-, hbyId, hbytes, -⟩ := removeKey_of_some h
    refine ⟨fun key' u hu => ?_, fun id key' => ?_, ?_, removeKey_senders hm.senders h⟩
    · rw [removeKey_byKey] at hu
      split at hu
      · cases hu
      · exact hm.keyed key' u hu
    · have hid := (hm.inverse t.id key).2 ⟨t, h, rfl⟩
      rw [removeKey_byKey, hbyId]
      simp only [TreeMap.getElem?_erase, Std.compare_eq_iff_eq]
      by_cases hi : t.id = id <;> by_cases hk : key = key'
      · simp [hi, hk]
      · -- another key under this id would be the key itself
        rw [if_pos hi, if_neg hk, ← hm.inverse, ← hi, hid]
        simp [hk]
      · rw [if_neg hi, if_pos hk, hm.inverse, ← hk, h]
        simp [hi]
      · rw [if_neg hi, if_neg hk]
        exact hm.inverse id key'
    · rw [hbytes, hm.bytes, heldBytes_of_perm (removeKey_perm h), Nat.add_sub_cancel]

theorem removeKey_within (hm : m.Consistent) (hw : m.Within) (key : Address × U64) : (m.removeKey key).Within := by
  cases h : m.byKey[key]? with
  | none =>
    rw [removeKey_of_none h]
    exact hw
  | some t =>
    have hperm := removeKey_perm h
    obtain ⟨hsize, hbytes, hsenders⟩ := hw
    rw [size_of_perm hperm] at hsize
    rw [hm.bytes, heldBytes_of_perm hperm] at hbytes
    refine ⟨?_, ?_, fun a => ?_⟩
    · rw [removeKey_limits]
      omega
    · rw [(removeKey_consistent hm key).bytes, removeKey_limits]
      omega
    · have hsender := hsenders a
      rw [heldBy_of_perm hperm] at hsender
      rw [removeKey_limits]
      omega

theorem foldl_removeKey_keeps {P : Mempool → Prop} (hP : ∀ m key, P m → P (m.removeKey key))
    (keys : List (Address × U64)) (hm : P m) : P (keys.foldl removeKey m) := by
  induction keys generalizing m with
  | nil => exact hm
  | cons key rest ih => exact ih (hP m key hm)

end Mempool

/-! ## Operations -/

inductive MempoolOp where
  | insert (t : Transaction) (chainId : ChainId) (height : Height) (senderAccount : Account)
      (feePayerAccount : Option Account)
  | removeCommitted (transactions : List Transaction)
  | evictExpired (height : Height)

namespace Mempool

/-- The outcome of `insert` on a pool that keeps what an error left in it. -/
def settle (m : Mempool) : Except Rejected (Mempool × Hash32) → EStateM.Result Rejected Mempool Hash32
  | .ok (m', id) => .ok id m'
  | .error e => .error e m

theorem settle_guard {p : Prop} [Decidable p] {e : Rejected} {m : Mempool} {x : EStateM Rejected Mempool Hash32}
    {y : Except Rejected (Mempool × Hash32)} (f : Unit → EStateM Rejected Mempool Hash32)
    (g : Unit → Except Rejected (Mempool × Hash32)) (h : x m = m.settle y) :
    (if p then throw e >>= f else x) m = m.settle (if p then throw e >>= g else y) := by
  by_cases hp : p
  · rw [if_pos hp, if_pos hp]
    rfl
  · rw [if_neg hp, if_neg hp]
    exact h

theorem settle_get {m : Mempool} {f : Mempool → EStateM Rejected Mempool Hash32}
    {r : EStateM.Result Rejected Mempool Hash32} (h : f m m = r) : (get >>= f) m = r := h

variable [Crypto]

/-- `insert` as it is written, one field after the other; what is written before an error stays written. -/
def offer (t : Transaction) (chainId : ChainId) (height : Height) (senderAccount : Account)
    (feePayerAccount : Option Account) : EStateM Rejected Mempool Hash32 := do
  let sender := t.body.sender
  let nonce := t.body.nonce
  if nonce < senderAccount.nonce then throw (.nonceTooLow nonce senderAccount.nonce)
  if (← get).byKey.contains (sender, nonce) then throw (.nonceClaimed nonce)
  if (← get).byKey.size ≥ (← get).limits.maxTransactions then throw .full
  let held := (← get).perSender.getD sender 0
  if held ≥ (← get).limits.maxPerSender then throw (.senderFull held)
  if (encode t).length > MAX_BLOCK_BYTES then throw .tooLarge
  let bytes := (← get).bytes + (encode t).length
  if bytes > (← get).limits.maxBytes then throw .full
  match t.verifyStateless chainId height with
  | .error e => throw (.invalid e)
  | .ok _ => pure ()
  if !senderAccount.authorises t.signingKeys then throw .unauthorised
  if t.body.fee.isSponsored && !feePayerAccount.any (·.authorises t.sponsorKeys) then
    throw .sponsorUnauthorised
  if (← get).byId.contains t.id then throw .duplicate
  modify fun m => { m with byKey := m.byKey.insert (sender, nonce) t }
  modify fun m => { m with byId := m.byId.insert t.id (sender, nonce) }
  modify fun m => { m with perSender := m.perSender.insert sender (held + 1) }
  modify fun m => { m with bytes }
  return t.id

theorem offer_eq (t : Transaction) (chainId : ChainId) (height : Height) (senderAccount : Account)
    (feePayerAccount : Option Account) (m : Mempool) :
    offer t chainId height senderAccount feePayerAccount m =
      m.settle (m.insert t chainId height senderAccount feePayerAccount) := by
  unfold offer insert
  refine settle_guard _ _ ?_
  refine settle_get ?_
  refine settle_guard _ _ ?_
  refine settle_get (settle_get ?_)
  refine settle_guard _ _ ?_
  refine settle_get (settle_get ?_)
  refine settle_guard _ _ ?_
  refine settle_guard _ _ ?_
  refine settle_get (settle_get ?_)
  refine settle_guard _ _ ?_
  cases t.verifyStateless chainId height with
  | error e => rfl
  | ok u =>
    refine settle_guard _ _ ?_
    refine settle_guard _ _ ?_
    refine settle_get ?_
    exact settle_guard _ _ rfl

end Mempool

namespace MempoolOp

variable [Crypto]

def apply (m : Mempool) : MempoolOp → Mempool
  | .insert t chainId height senderAccount feePayerAccount =>
    match Mempool.offer t chainId height senderAccount feePayerAccount m with
    | .ok _ m' => m'
    | .error _ m' => m'
  | .removeCommitted transactions => m.removeCommitted transactions
  | .evictExpired height => m.evictExpired height

end MempoolOp

def Mempool.after [Crypto] (limits : MempoolLimits) (ops : List MempoolOp) : Mempool :=
  ops.foldl MempoolOp.apply (Mempool.new limits)

section

variable [Crypto] {m : Mempool}

theorem MempoolOp.apply_keeps {P : Mempool → Prop} (op : MempoolOp)
    (hinsert : ∀ m t chainId height senderAccount feePayerAccount m' id, P m →
      m.insert t chainId height senderAccount feePayerAccount = .ok (m', id) → P m')
    (hremove : ∀ m key, P m → P (m.removeKey key)) (hm : P m) : P (op.apply m) := by
  cases op with
  | insert t chainId height senderAccount feePayerAccount =>
    rw [apply, Mempool.offer_eq]
    cases h : m.insert t chainId height senderAccount feePayerAccount with
    | error e => exact hm
    | ok r => exact hinsert _ _ _ _ _ _ _ _ hm h
  | removeCommitted transactions =>
    have hfold : m.removeCommitted transactions = (transactions.map Transaction.key).foldl Mempool.removeKey m := by
      rw [List.foldl_map]
      rfl
    rw [apply, hfold]
    exact Mempool.foldl_removeKey_keeps hremove _ hm
  | evictExpired height => exact Mempool.foldl_removeKey_keeps hremove _ hm

theorem Mempool.after_keeps {P : Mempool → Prop} (limits : MempoolLimits) (ops : List MempoolOp)
    (hnew : P (Mempool.new limits))
    (hinsert : ∀ m t chainId height senderAccount feePayerAccount m' id, P m →
      m.insert t chainId height senderAccount feePayerAccount = .ok (m', id) → P m')
    (hremove : ∀ m key, P m → P (m.removeKey key)) : P (Mempool.after limits ops) := by
  unfold Mempool.after
  generalize Mempool.new limits = m at hnew
  induction ops generalizing m with
  | nil => exact hnew
  | cons op rest ih => exact ih _ (op.apply_keeps hinsert hremove hnew)

theorem Mempool.new_consistent (limits : MempoolLimits) : (Mempool.new limits).Consistent := by
  refine ⟨nofun, fun id key => ⟨nofun, ?_⟩, rfl, fun a => rfl⟩
  rintro ⟨t, ht, -⟩
  cases ht

theorem Mempool.after_consistent (limits : MempoolLimits) (ops : List MempoolOp) :
    (Mempool.after limits ops).Consistent ∧ (Mempool.after limits ops).Within ∧
      (Mempool.after limits ops).limits = limits := by
  refine Mempool.after_keeps (P := fun m => m.Consistent ∧ m.Within ∧ m.limits = limits) limits ops ?_ ?_ ?_
  · refine ⟨Mempool.new_consistent limits, ⟨?_, ?_, fun a => ?_⟩, rfl⟩
    · exact Nat.zero_le _
    · exact Nat.zero_le _
    · exact Nat.zero_le _
  · rintro m t chainId height senderAccount feePayerAccount m' id ⟨hm, hw, hl⟩ h
    refine ⟨Mempool.insert_consistent hm h, Mempool.insert_within hm hw h, ?_⟩
    obtain ⟨-, -, -, -, -, -, -, rfl⟩ := Mempool.insert_writes h
    exact hl
  · rintro m key ⟨hm, hw, hl⟩
    exact ⟨Mempool.removeKey_consistent hm key, Mempool.removeKey_within hm hw key, (Mempool.removeKey_limits m key).trans hl⟩

end

end AfroLink
