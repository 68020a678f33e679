import AfroLink.Base.TreeMap
import AfroLink.Executor.Lemmas.Transaction
import AfroLink.Store.ChainStore

/-!
# What storing a block writes

The block, its certificate and its receipts go under its height; the location of each of its transactions is the last
position in the block that has its id.
-/

open Std (TreeMap ReflCmp)

namespace AfroLink

variable [Crypto] {c c' : ChainStore} {b : Block} {commit : Commit} {rs : List TxReceipt}

namespace ChainStore

variable {id : Hash32} {locations locations' : TreeMap Hash32 (Height × U32)} {ts : List Transaction} {height : Height}
  {t : Transaction}

theorem indexFrom_absent {index : ℕ}
    (h : indexFrom height index ts locations = .ok locations') (hid : ∀ t ∈ ts, t.id ≠ id) :
    locations'[id]? = locations[id]? := by
  induction ts generalizing index locations with
  | nil =>
    cases h
    rfl
  | cons t rest ih =>
    unfold indexFrom at h
    split at h
    · rw [ih h fun u hu => hid u (.tail _ hu), TreeMap.getElem?_insert, if_neg]
      rw [Std.compare_eq_iff_eq]
      exact hid t (.head _)
    · cases h

theorem indexFrom_present {index : ℕ}
     {i : ℕ}
    (h : indexFrom height index ts locations = .ok locations') (hi : ts[i]? = some t) :
    ∃ (j : ℕ) (at_ : U32), i ≤ j ∧ at_.val = index + j ∧ locations'[t.id]? = some (height, at_) ∧
      (ts[j]?.map Transaction.id = some t.id) := by
  induction ts generalizing index locations i t with
  | nil => cases hi
  | cons u rest ih =>
    unfold indexFrom at h
    split at h
    · rename_i hindex
      by_cases hlater : ∃ k, rest[k]?.map Transaction.id = some t.id ∧ i ≤ k + 1
      · obtain ⟨k, hk, hik⟩ := hlater
        obtain ⟨v, hv, hid⟩ := Option.map_eq_some_iff.1 hk
        obtain ⟨j, at_, hkj, hat, hloc, hj⟩ := ih h hv
        rw [hid] at hloc hj
        exact ⟨j + 1, at_, by omega, by omega, hloc, hj⟩
      · -- the head is the last occurrence
        have hzero : i = 0 := by
          by_contra hne
          obtain ⟨k, rfl⟩ := Nat.exists_eq_succ_of_ne_zero hne
          exact hlater ⟨k, by rw [show rest[k]? = some t from hi]; rfl, Nat.le_refl _⟩
        subst hzero
        obtain rfl : u = t := Option.some.inj hi
        refine ⟨0, ⟨index, hindex⟩, Nat.le_refl _, rfl, ?_, rfl⟩
        rw [indexFrom_absent h, TreeMap.getElem?_insert, if_pos ReflCmp.compare_self]
        intro v hv heq
        obtain ⟨k, hk⟩ := List.getElem?_of_mem hv
        exact hlater ⟨k, by rw [hk, Option.map_some, heq], Nat.zero_le _⟩
    · cases h

theorem putBlock_eq_ok (h : c.putBlock b commit rs = .ok c') :
    rs.length = b.transactions.length ∧
      ∃ locations, indexFrom b.header.height 0 b.transactions c.locations = .ok locations ∧
        c' = { blocks := c.blocks.insert b.header.height b
               commits := c.commits.insert b.header.height commit
               receiptLists := c.receiptLists.insert b.header.height rs
               locations
               recorded := if c.height ≤ b.header.height then some b.header.height else c.recorded } := by
  unfold putBlock at h
  simp only at h
  split at h
  · cases h
  · rename_i hlen
    split at h
    · cases h
    · rename_i locations hindex
      cases h
      exact ⟨not_not.1 hlen, locations, hindex, rfl⟩

theorem putBlock_absent (h : c.putBlock b commit rs = .ok c') (hid : ∀ t ∈ b.transactions, t.id ≠ id) :
    c'.locate id = c.locate id := by
  obtain ⟨-, locations, hindex, rfl⟩ := putBlock_eq_ok h
  exact indexFrom_absent hindex hid

theorem putBlock_present {i : ℕ} (h : c.putBlock b commit rs = .ok c') (hi : b.transactions[i]? = some t) :
    ∃ j : U32, i ≤ j.val ∧ c'.locate t.id = some (b.header.height, j) ∧
      b.transactions[j.val]?.map Transaction.id = some t.id := by
  obtain ⟨-, locations, hindex, rfl⟩ := putBlock_eq_ok h
  obtain ⟨j, at_, hij, hat, hloc, hj⟩ := indexFrom_present hindex hi
  rw [Nat.zero_add] at hat
  exact ⟨at_, hat ▸ hij, hloc, hat ▸ hj⟩

theorem putBlock_block (h : c.putBlock b commit rs = .ok c') (height : Height) :
    c'.block height = if b.header.height = height then some b else c.block height := by
  obtain ⟨-, locations, -, rfl⟩ := putBlock_eq_ok h
  simp only [block, TreeMap.getElem?_insert, Std.compare_eq_iff_eq]

theorem putBlock_commit (h : c.putBlock b commit rs = .ok c') (height : Height) :
    c'.commit height = if b.header.height = height then some commit else c.commit height := by
  obtain ⟨-, locations, -, rfl⟩ := putBlock_eq_ok h
  simp only [ChainStore.commit, TreeMap.getElem?_insert, Std.compare_eq_iff_eq]

theorem putBlock_receipts (h : c.putBlock b commit rs = .ok c') (height : Height) :
    c'.receipts height = if b.header.height = height then some rs else c.receipts height := by
  obtain ⟨-, locations, -, rfl⟩ := putBlock_eq_ok h
  simp only [receipts, TreeMap.getElem?_insert, Std.compare_eq_iff_eq]

theorem putBlock_height (h : c.putBlock b commit rs = .ok c') : c'.height = max c.height b.header.height := by
  obtain ⟨-, locations, -, rfl⟩ := putBlock_eq_ok h
  show (if c.height ≤ b.header.height then some b.header.height else c.recorded).getD 0 = _
  split
  · rename_i hle
    exact (max_eq_right hle).symm
  · rename_i hle
    exact (max_eq_left (le_of_not_ge hle)).symm

omit [Crypto] in
theorem transaction_of_locate {j : U32}
    (hloc : c.locate id = some (height, j)) (hb : c.block height = some b) (ht : b.transactions[j.val]? = some t) :
    c.transaction id = .ok (some (height, j, t)) := by
  simp [transaction, hloc, hb, ht]

end ChainStore

/-! ## Receipts -/

theorem Exec.executeTx_receipt (e : Executor) (ctx : BlockContext) (t : Transaction) (s : Store) :
    (executeTx e ctx t s).2.receipt.txId = t.id := by
  rcases executeTx_cases e ctx t s with ⟨err, h, -⟩ | ⟨s₁, -, -, -, -, h⟩
  · rw [h]
    rfl
  · rw [h]
    rfl

theorem Exec.executeTxs_receipts (e : Executor) (ctx : BlockContext) (ts : List Transaction) (s : Store) :
    (executeTxs e ctx ts s).2.map (·.receipt.txId) = ts.map Transaction.id := by
  induction ts generalizing s with
  | nil => rfl
  | cons t rest ih =>
    have hcons : (executeTxs e ctx (t :: rest) s).2 =
        (executeTx e ctx t s).2 :: (executeTxs e ctx rest (executeTx e ctx t s).1).2 := rfl
    rw [hcons, List.map_cons, List.map_cons, ih, executeTx_receipt]

end AfroLink
