import AfroLink.Executor.Theorems.Accounts
import AfroLink.Store.Lemmas

/-!
# What the durable chain finds again

A transaction that paid is found at the place where it paid as long as its id does not come by again.
-/

namespace AfroLink

section

variable [Crypto] [StateRoot]

def Block.ctx (b : Block) : BlockContext := ⟨b.header.height, b.header.time⟩

def Executor.receipts (e : Executor) (s : Store) (b : Block) : List TxReceipt :=
  (e.executeBlock s b.ctx b.transactions).2.outcomes.map (·.receipt)

def storeBlocks (e : Executor) : List (Block × Commit) → Store → ChainStore → Except StoreError (Store × ChainStore)
  | [], s, c => .ok (s, c)
  | (b, commit) :: rest, s, c => do
    let c ← c.putBlock b commit (e.receipts s b)
    storeBlocks e rest (e.executeBlock s b.ctx b.transactions).1 c

def Consecutive (blocks : List (Block × Commit)) : Prop :=
  blocks.IsChain fun x y => y.1.header.height.val = x.1.header.height.val + 1

/-- `t` is at position `i` of the block, and pays for it when the block is executed on `s`. -/
structure Executor.Pays (e : Executor) (s : Store) (b : Block) (i : ℕ) (t : Transaction) (r : TxReceipt) : Prop where
  placed : b.transactions[i]? = some t
  receipt : (e.receipts s b)[i]? = some r
  paid : r.feeCharged ≠ 0

/-- `t` is found at its height and position, and so is its receipt. -/
structure ChainStore.Finds (c : ChainStore) (height : Height) (i : ℕ) (t : Transaction) (r : TxReceipt) : Prop where
  located : ∃ j : U32, j.val = i ∧ c.locate t.id = some (height, j) ∧ c.transaction t.id = .ok (some (height, j, t))
  receipts : ∃ rs, c.receipts height = some rs ∧ rs[i]? = some r ∧ r.txId = t.id

variable {e : Executor} {s s' : Store} {c c' : ChainStore} {blocks later : List (Block × Commit)}

theorem storeBlocks_append {before after : List (Block × Commit)} :
    storeBlocks e (before ++ after) s c = (storeBlocks e before s c >>= fun (s, c) => storeBlocks e after s c) := by
  induction before generalizing s c with
  | nil => rfl
  | cons block rest ih =>
    obtain ⟨b, commit⟩ := block
    simp only [List.cons_append, storeBlocks, bind_assoc, ih]

variable {commit : Commit} {b : Block}

theorem storeBlocks_cons (h : storeBlocks e ((b, commit) :: later) s c = .ok (s', c')) :
    ∃ c₁, c.putBlock b commit (e.receipts s b) = .ok c₁ ∧
      storeBlocks e later (e.executeBlock s b.ctx b.transactions).1 c₁ = .ok (s', c') := by
  rw [storeBlocks] at h
  cases hput : c.putBlock b commit (e.receipts s b) with
  | error err =>
    rw [hput] at h
    cases h
  | ok c₁ =>
    rw [hput] at h
    exact ⟨c₁, rfl, h⟩

theorem storeBlocks_keeps {id : Hash32} {height : Height} (h : storeBlocks e later s c = .ok (s', c'))
    (hheight : ∀ x ∈ later, height < x.1.header.height) (hid : ∀ x ∈ later, ∀ t ∈ x.1.transactions, t.id ≠ id) :
    c'.locate id = c.locate id ∧ c'.block height = c.block height ∧ c'.receipts height = c.receipts height := by
  induction later generalizing s c with
  | nil =>
    cases h
    exact ⟨rfl, rfl, rfl⟩
  | cons block rest ih =>
    obtain ⟨b, commit⟩ := block
    obtain ⟨c₁, hput, hrest⟩ := storeBlocks_cons h
    have hne : b.header.height ≠ height := (hheight _ (.head _)).ne'
    obtain ⟨hloc, hblock, hreceipts⟩ := ih hrest (fun x hx => hheight x (.tail _ hx)) fun x hx => hid x (.tail _ hx)
    refine ⟨hloc.trans (ChainStore.putBlock_absent hput (hid _ (.head _))), ?_, ?_⟩
    · rw [hblock, ChainStore.putBlock_block hput, if_neg hne]
    · rw [hreceipts, ChainStore.putBlock_receipts hput, if_neg hne]

omit [Crypto] [StateRoot] in
theorem Consecutive.lt {x : Block × Commit} (h : Consecutive (x :: later)) :
    ∀ y ∈ later, x.1.header.height < y.1.header.height := by
  induction later generalizing x with
  | nil => exact fun y hy => (List.not_mem_nil hy).elim
  | cons z rest ih =>
    obtain ⟨hxz, hrest⟩ := List.isChain_cons_cons.1 h
    have hlt : x.1.header.height < z.1.header.height := Fin.lt_def.2 (by omega)
    intro y hy
    rcases List.mem_cons.1 hy with rfl | hy
    · exact hlt
    · exact hlt.trans (ih hrest y hy)

/-- The id of a transaction that paid does not occur again: not later in its block, not in a later block. -/
def NoRepeat (b : Block) (i : ℕ) (t : Transaction) (after : List (Block × Commit)) : Prop :=
  (∀ j u, i < j → b.transactions[j]? = some u → u.id ≠ t.id) ∧ ∀ x ∈ after, ∀ u ∈ x.1.transactions, u.id ≠ t.id

theorem finds_of_noRepeat {i : ℕ} {t : Transaction} {r : TxReceipt}
    (hchain : Consecutive ((b, commit) :: later)) (hpays : e.Pays s b i t r) (hid : NoRepeat b i t later)
    (h : storeBlocks e ((b, commit) :: later) s c = .ok (s', c')) : c'.Finds b.header.height i t r := by
  obtain ⟨c₁, hput, hrest⟩ := storeBlocks_cons h
  obtain ⟨hloc, hblock, hreceipts⟩ := storeBlocks_keeps hrest hchain.lt hid.2
  obtain ⟨j, hij, hlocate, hj⟩ := ChainStore.putBlock_present hput hpays.placed
  obtain ⟨u, hu, hsame⟩ := Option.map_eq_some_iff.1 hj
  obtain rfl : i = j.val := hij.antisymm (not_lt.1 fun hlt => hid.1 j u hlt hu hsame)
  rw [ChainStore.putBlock_block hput, if_pos rfl] at hblock
  rw [ChainStore.putBlock_receipts hput, if_pos rfl] at hreceipts
  have hlocated : c'.locate t.id = some (b.header.height, j) := hloc.trans hlocate
  refine ⟨⟨j, rfl, hlocated, ChainStore.transaction_of_locate hlocated hblock hpays.placed⟩,
    ⟨_, hreceipts, hpays.receipt, ?_⟩⟩
  have htxIds : (e.receipts s b).map (·.txId) = b.transactions.map Transaction.id := by
    rw [Executor.receipts, List.map_map]
    exact Exec.executeTxs_receipts e b.ctx b.transactions s
  have hat : ((e.receipts s b).map (·.txId))[j.val]? = some t.id := by
    rw [htxIds, List.getElem?_map, hpays.placed, Option.map_some]
  rw [List.getElem?_map, hpays.receipt] at hat
  exact Option.some.inj hat

theorem noRepeat_of_finds {i : ℕ} {t : Transaction} (r : TxReceipt)
    (hchain : Consecutive ((b, commit) :: later)) (h : storeBlocks e ((b, commit) :: later) s c = .ok (s', c'))
    (hfinds : ∀ first s₁ c₁, first <+: later → storeBlocks e ((b, commit) :: first) s c = .ok (s₁, c₁) →
      c₁.Finds b.header.height i t r) : NoRepeat b i t later := by
  refine ⟨fun j u hij hu hsame => ?_, fun x hx u hu hsame => ?_⟩
  · -- right after the block is stored, the location is not before the later occurrence
    obtain ⟨c₁, hput, -⟩ := storeBlocks_cons h
    obtain ⟨k, hjk, hlocate, -⟩ := ChainStore.putBlock_present hput hu
    have hstored : storeBlocks e [(b, commit)] s c = .ok ((e.executeBlock s b.ctx b.transactions).1, c₁) := by
      rw [storeBlocks, hput]
      rfl
    obtain ⟨k', hk', hlocate', -⟩ := (hfinds [] _ c₁ List.nil_prefix hstored).located
    rw [hsame, hlocate'] at hlocate
    cases hlocate
    omega
  · -- right after the later block is stored, the location is at its height
    obtain ⟨first, rest, rfl⟩ := List.append_of_mem hx
    obtain ⟨b', commit'⟩ := x
    obtain ⟨k, hk⟩ := List.getElem?_of_mem hu
    have hsplit : (b, commit) :: (first ++ (b', commit') :: rest) = ((b, commit) :: first) ++ (b', commit') :: rest := rfl
    rw [hsplit, storeBlocks_append] at h
    cases hfirst : storeBlocks e ((b, commit) :: first) s c with
    | error err =>
      rw [hfirst] at h
      cases h
    | ok sc =>
      obtain ⟨s₁, c₁⟩ := sc
      rw [hfirst] at h
      obtain ⟨c₂, hput, -⟩ := storeBlocks_cons h
      obtain ⟨j, -, hlocate, -⟩ := ChainStore.putBlock_present hput hk
      have hstored : storeBlocks e ((b, commit) :: (first ++ [(b', commit')])) s c =
          .ok ((e.executeBlock s₁ b'.ctx b'.transactions).1, c₂) := by
        rw [show (b, commit) :: (first ++ [(b', commit')]) = ((b, commit) :: first) ++ [(b', commit')] from rfl,
          storeBlocks_append, hfirst]
        show storeBlocks e [(b', commit')] s₁ c₁ = _
        rw [storeBlocks, hput]
        rfl
      have hpart : first ++ [(b', commit')] <+: first ++ (b', commit') :: rest :=
        (List.prefix_append_right_inj first).2 ⟨rest, rfl⟩
      obtain ⟨k', -, hlocate', -⟩ := (hfinds _ _ c₂ hpart hstored).located
      rw [hsame, hlocate'] at hlocate
      have hlt := hchain.lt (b', commit') (List.mem_append_right _ (.head _))
      simp only [Option.some.injEq, Prod.mk.injEq] at hlocate
      exact hlt.ne hlocate.1

end

theorem paid_stays_findable_iff [Crypto] [StateRoot] (e : Executor) (s s' : Store) (c c' : ChainStore)
    (blocks : List (Block × Commit)) (hchain : Consecutive blocks) (hstored : storeBlocks e blocks s c = .ok (s', c')) :
    (∀ before b commit after s₀ c₀ i t r, blocks = before ++ (b, commit) :: after →
      storeBlocks e before s c = .ok (s₀, c₀) → e.Pays s₀ b i t r →
      ∀ later s₁ c₁, later <+: after → storeBlocks e (before ++ (b, commit) :: later) s c = .ok (s₁, c₁) →
        c₁.Finds b.header.height i t r) ↔
    ∀ before b commit after s₀ c₀ i t r, blocks = before ++ (b, commit) :: after →
      storeBlocks e before s c = .ok (s₀, c₀) → e.Pays s₀ b i t r → NoRepeat b i t after := by
  have hfrom : ∀ before b commit after s₀ c₀, blocks = before ++ (b, commit) :: after →
      storeBlocks e before s c = .ok (s₀, c₀) →
      Consecutive ((b, commit) :: after) ∧ storeBlocks e ((b, commit) :: after) s₀ c₀ = .ok (s', c') := by
    rintro before b commit after s₀ c₀ rfl hbefore
    refine ⟨(List.isChain_append.1 hchain).2.1, ?_⟩
    rw [storeBlocks_append, hbefore] at hstored
    exact hstored
  constructor
  · intro h before b commit after s₀ c₀ i t r hblocks hbefore hpays
    obtain ⟨hafter, hstore⟩ := hfrom before b commit after s₀ c₀ hblocks hbefore
    refine noRepeat_of_finds r hafter hstore fun first s₁ c₁ hfirst hok => ?_
    refine h before b commit after s₀ c₀ i t r hblocks hbefore hpays first s₁ c₁ hfirst ?_
    rw [storeBlocks_append, hbefore]
    exact hok
  · intro h before b commit after s₀ c₀ i t r hblocks hbefore hpays later s₁ c₁ hlater hok
    obtain ⟨hafter, -⟩ := hfrom before b commit after s₀ c₀ hblocks hbefore
    have hnone := h before b commit after s₀ c₀ i t r hblocks hbefore hpays
    obtain ⟨rest, rfl⟩ := hlater
    rw [storeBlocks_append, hbefore] at hok
    refine finds_of_noRepeat ?_ hpays ⟨hnone.1, fun x hx => hnone.2 x (List.mem_append_left _ hx)⟩ hok
    exact (List.isChain_append.1 (show List.IsChain _ (((b, commit) :: later) ++ rest) from hafter)).1

namespace Sample

/-- A block at this height with the payment of account 1 at nonce 0. -/
def paying (height : Height) : Block :=
  ((⟨chain⟩ : Executor).buildBlock (opened wealthy) height 200 0 [payment 0 100] (.unchanged alone)).2.1

def bareCommit (height : Height) : Commit := { height, round := 0, blockId := 0, signatures := [] }

theorem paying_pays : ∃ r, (⟨chain⟩ : Executor).Pays (opened wealthy) (paying 1) 0 (payment 0 100) r :=
  ⟨((⟨chain⟩ : Executor).receipts (opened wealthy) (paying 1)).head (by decide +kernel), by decide +kernel,
    by decide +kernel, by decide +kernel⟩

/-- The payment is charged at height 1, comes by again at height 2 and is turned away; and there it is found. -/
theorem repeat_moves_location :
    (∃ block, Runs ((genesisOf wealthy).apply .devnet) .empty block (opened wealthy)) ∧
    Consecutive [(paying 1, bareCommit 1), (paying 2, bareCommit 2)] ∧
    (∃ r, (⟨chain⟩ : Executor).Pays (opened wealthy) (paying 1) 0 (payment 0 100) r) ∧
    (storeBlocks ⟨chain⟩ [(paying 1, bareCommit 1), (paying 2, bareCommit 2)] (opened wealthy) .new).toOption.bind
      (·.2.locate (payment 0 100).id) = some (2, 0) ∧
    ((storeBlocks ⟨chain⟩ [(paying 1, bareCommit 1), (paying 2, bareCommit 2)] (opened wealthy) .new).toOption.bind
      (·.2.receipts 2)).map (·.map (·.feeCharged)) = some [0] :=
  ⟨wealthy_genesis,
    List.isChain_cons_cons.2 ⟨by decide +kernel, List.isChain_singleton _⟩, paying_pays, by decide +kernel,
    by decide +kernel⟩

theorem paid_stays_findable_iff_once :
    ∃ r s c, storeBlocks ⟨chain⟩ [(paying 1, bareCommit 1)] (opened wealthy) .new = .ok (s, c) ∧ r.feeCharged ≠ 0 ∧
      c.Finds (paying 1).header.height 0 (payment 0 100) r := by
  obtain ⟨r, hpays⟩ := paying_pays
  have hok : (storeBlocks ⟨chain⟩ [(paying 1, bareCommit 1)] (opened wealthy) .new).toOption.isSome = true := by
    decide +kernel
  have hone : (paying 1).transactions.length = 1 := by decide +kernel
  generalize paying 1 = b at hpays hok hone ⊢
  generalize opened wealthy = start at hpays hok ⊢
  cases hstored : storeBlocks ⟨chain⟩ [(b, bareCommit 1)] start .new with
  | error err =>
    rw [hstored] at hok
    cases hok
  | ok sc =>
    obtain ⟨s, c⟩ := sc
    refine ⟨r, s, c, rfl, hpays.paid, ?_⟩
    refine (paid_stays_findable_iff ⟨chain⟩ start s .new c [(b, bareCommit 1)] (List.isChain_singleton _) hstored).2
      ?_ [] b (bareCommit 1) [] _ _ 0 (payment 0 100) r rfl rfl hpays [] s c List.nil_prefix hstored
    intro before b' commit after s₀ c₀ i t r' hsplit hbefore hpays'
    cases before with
    | cons x rest =>
      have hlength := congrArg List.length hsplit
      simp at hlength
    | nil =>
      cases hsplit
      refine ⟨fun j u hij hu => ?_, fun x hx => (List.not_mem_nil hx).elim⟩
      have hj := (List.getElem?_eq_some_iff.1 hu).1
      omega

end Sample

end AfroLink
