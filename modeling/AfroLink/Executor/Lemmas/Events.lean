import AfroLink.Base.Trace
import AfroLink.Executor.Lemmas.Transaction

/-!
# Blocks as sequences of events

What executing blocks does to the store, one write-set at a time: a fee is taken, a message takes effect, a nonce
moves on, a history pointer is moved. Rejected transactions and the messages of failed ones leave no event.
-/

namespace AfroLink

def executeBlocks [Crypto] [StateRoot] (e : Executor) : List (BlockContext × List Transaction) → Store → Store
  | [], s => s
  | (ctx, transactions) :: rest, s => executeBlocks e rest (e.executeBlock s ctx transactions).1

theorem executeBlocks_singleton [Crypto] [StateRoot] (e : Executor) (ctx : BlockContext) (t : Transaction) (s : Store) :
    executeBlocks e [(ctx, [t])] s = (Exec.executeTx e ctx t s).1 := rfl

theorem executeBlocks_append [Crypto] [StateRoot] (e : Executor) (blocks later : List (BlockContext × List Transaction))
    (s : Store) : executeBlocks e (blocks ++ later) s = executeBlocks e later (executeBlocks e blocks s) := by
  induction blocks generalizing s with
  | nil => rfl
  | cons block rest ih => exact ih _

inductive StoreEvent where
  | fee (payer : Address) (denom : Denom) (amount : Amount)
  | message (ctx : BlockContext) (sender : Address) (m : Message)
  | nonce (sender : Address)
  | pointer (a : Address) (p : TxPointer)
deriving DecidableEq

def StoreEvent.took : StoreEvent → Option (Address × Message)
  | message _ sender m => some (sender, m)
  | fee .. | nonce _ | pointer .. => none

section

variable [Crypto]

/-- `s` becomes `s'` by the one event of the list. -/
inductive Emits : Store → List StoreEvent → Store → Prop where
  | fee {s s' : Store} {payer : Address} {d : Denom} {x : Amount}
      (h : Runs (Exec.bankTransfer payer Exec.feeCollectorAddress d x) s () s') : Emits s [.fee payer d x] s'
  | message {s s' : Store} {ctx : BlockContext} {sender : Address} {m : Message}
      (h : Runs (Exec.applyMessage ctx sender m) s () s') : Emits s [.message ctx sender m] s'
  | nonce (s : Store) (a : Address) : Emits s [.nonce a] (Exec.bumpNonce s a)
  | pointer (s : Store) (a : Address) (p : TxPointer) : Emits s [.pointer a p] (Exec.moveHistoryPointer s a p).1

theorem Emits.single {s s' : Store} {es : List StoreEvent} (h : Emits s es s') : ∃ ev, es = [ev] := by
  cases h <;> exact ⟨_, rfl⟩

theorem Emits.quiet_or_message {s s' : Store} {es : List StoreEvent} (h : Emits s es s') :
    es.filterMap StoreEvent.took = [] ∨
      ∃ ctx sender m, es = [.message ctx sender m] ∧ Runs (Exec.applyMessage ctx sender m) s () s' := by
  cases h with
  | message h => exact .inr ⟨_, _, _, rfl, h⟩
  | fee | nonce | pointer => exact .inl rfl

theorem Emits.frame {s s' : Store} {es : List StoreEvent} (h : Emits s es s') (hes : es.filterMap StoreEvent.took = [])
    {k : StoreKey} (ha : ∀ a, k ≠ .account a) (hb : ∀ a d, k ≠ .balance a d) : s' k = s k := by
  cases h with
  | fee h =>
    refine ((Exec.bankTransfer_keeps (C := False) (F := fun k => ∃ a d, k = .balance a d) ⟨_, _, rfl⟩
      ⟨_, _, rfl⟩).run h).1.frame k ?_
    rintro ⟨a, d, rfl⟩
    exact hb a d rfl
  | message h => cases hes
  | nonce a => exact Store.set_of_ne (ha a)
  | pointer a p => exact Store.set_of_ne (ha a)

namespace Exec

/-- The accounts whose history a charged transaction moves. -/
def touchedBy (ctx : BlockContext) (t : Transaction) (payer : Address) (s : Store) : List Address :=
  if messagesFail ctx t s then sortDedup [t.body.sender, payer] else t.touchedAddresses

def settleEvents (ctx : BlockContext) (t : Transaction) (payer : Address) (s : Store) : List StoreEvent :=
  (if messagesFail ctx t s then [] else t.body.messages.map (.message ctx t.body.sender)) ++
    .nonce t.body.sender :: (touchedBy ctx t payer s).map (.pointer · ⟨t.id, ctx.height⟩)

theorem settleEvents_cases {ctx : BlockContext} {t : Transaction} {payer : Address} {s : Store} {ev : StoreEvent}
    (h : ev ∈ settleEvents ctx t payer s) :
    (∃ m ∈ t.body.messages, ev = .message ctx t.body.sender m) ∨ ev = .nonce t.body.sender ∨ ∃ a p, ev = .pointer a p := by
  rcases List.mem_append.1 h with h | h
  · split at h
    · cases h
    · obtain ⟨m, hm, rfl⟩ := List.mem_map.1 h
      exact .inl ⟨m, hm, rfl⟩
  · rcases List.mem_cons.1 h with rfl | h
    · exact .inr (.inl rfl)
    · obtain ⟨a, -, rfl⟩ := List.mem_map.1 h
      exact .inr (.inr ⟨a, _, rfl⟩)

def txEvents (e : Executor) (ctx : BlockContext) (t : Transaction) (s : Store) : List StoreEvent :=
  match checkTx e ctx t s with
  | .error _ _ => []
  | .ok payer s =>
    match bankTransfer payer feeCollectorAddress t.body.fee.denom t.body.fee.amount s with
    | .error _ _ => []
    | .ok _ s => .fee payer t.body.fee.denom t.body.fee.amount :: settleEvents ctx t payer s

theorem txEvents_cases {e : Executor} {ctx : BlockContext} {t : Transaction} {s : Store} {ev : StoreEvent}
    (h : ev ∈ txEvents e ctx t s) :
    (∃ payer, ev = .fee payer t.body.fee.denom t.body.fee.amount) ∨ (∃ m ∈ t.body.messages, ev = .message ctx t.body.sender m) ∨
      ev = .nonce t.body.sender ∨ ∃ a p, ev = .pointer a p := by
  unfold txEvents at h
  split at h
  · cases h
  · split at h
    · cases h
    · rcases List.mem_cons.1 h with rfl | h
      · exact .inl ⟨_, rfl⟩
      · exact .inr (settleEvents_cases h)

def txsEvents (e : Executor) (ctx : BlockContext) : List Transaction → Store → List StoreEvent
  | [], _ => []
  | t :: rest, s => txEvents e ctx t s ++ txsEvents e ctx rest (executeTx e ctx t s).1

end Exec

def runEvents [StateRoot] (e : Executor) : List (BlockContext × List Transaction) → Store → List StoreEvent
  | [], _ => []
  | (ctx, transactions) :: rest, s =>
    Exec.txsEvents e ctx transactions s ++ runEvents e rest (e.executeBlock s ctx transactions).1

theorem runEvents_append [StateRoot] (e : Executor) (blocks later : List (BlockContext × List Transaction)) (s : Store) :
    runEvents e (blocks ++ later) s = runEvents e blocks s ++ runEvents e later (executeBlocks e blocks s) := by
  induction blocks generalizing s with
  | nil => rfl
  | cons block rest ih =>
    rw [List.cons_append, runEvents, runEvents, executeBlocks, ih, List.append_assoc]

/-! ## The run is the trace of its events -/

namespace Exec

variable {ctx : BlockContext} {s s' : Store}

theorem applyMessages_trace {sender : Address} {ms : List Message} (h : Runs (applyMessages ctx sender ms) s () s') :
    Trace Emits s (ms.map (.message ctx sender)) s' := by
  induction ms generalizing s with
  | nil =>
    obtain ⟨-, rfl⟩ := Runs.pure_iff.1 h
    exact .nil s
  | cons m rest ih =>
    obtain ⟨u, s₁, hm, hrest⟩ := Runs.bind_iff.1 h
    exact .cons (.message hm) (ih hrest)

theorem touchAll_trace (p : TxPointer) (l : List Address) (s : Store) :
    Trace Emits s (l.map (.pointer · p)) (touchAll p l s).1 := by
  induction l generalizing s with
  | nil => exact .nil s
  | cons a rest ih => exact .cons (.pointer s a p) (ih _)

theorem settle_trace (ctx : BlockContext) (t : Transaction) (payer : Address) (s : Store) :
    Trace Emits s (settleEvents ctx t payer s) (settle ctx t payer s).1 := by
  unfold settleEvents touchedBy settle messagesFail
  cases h : applyMessages ctx t.body.sender t.body.messages s with
  | ok u sandbox =>
    exact (applyMessages_trace h).trans (.cons (.nonce _ _) (touchAll_trace _ _ _))
  | error err s' => exact Trace.trans (.nil s) (.cons (.nonce _ _) (touchAll_trace _ _ _))

theorem executeTx_trace (e : Executor) (ctx : BlockContext) (t : Transaction) (s : Store) :
    Trace Emits s (txEvents e ctx t s) (executeTx e ctx t s).1 := by
  have hcheck := wp_checkTx e ctx t s
  unfold executeTx txEvents
  unfold wp at hcheck
  cases hc : checkTx e ctx t s with
  | error err s' =>
    rw [hc] at hcheck
    subst hcheck
    exact .nil _
  | ok payer s' =>
    rw [hc] at hcheck
    obtain ⟨rfl, rfl, hchecked⟩ := hcheck
    have hpay := wp_bankTransfer (t.body.fee.payerOr t.body.sender) feeCollectorAddress t.body.fee.denom
      t.body.fee.amount s'
    unfold wp at hpay
    simp only
    cases hb : bankTransfer (t.body.fee.payerOr t.body.sender) feeCollectorAddress t.body.fee.denom
        t.body.fee.amount s' with
    | ok u s₁ => exact .cons (.fee hb) (settle_trace ctx t _ s₁)
    | error err s₁ =>
      rw [hb] at hpay
      subst hpay
      simp only [hchecked.fee_ne_zero]
      exact .nil _

theorem executeTxs_trace (e : Executor) (ctx : BlockContext) (ts : List Transaction) (s : Store) :
    Trace Emits s (txsEvents e ctx ts s) (executeTxs e ctx ts s).1 := by
  induction ts generalizing s with
  | nil => exact .nil s
  | cons t rest ih => exact (executeTx_trace e ctx t s).trans (ih _)

end Exec

theorem executeBlocks_trace [StateRoot] (e : Executor) (blocks : List (BlockContext × List Transaction)) (s : Store) :
    Trace Emits s (runEvents e blocks s) (executeBlocks e blocks s) := by
  induction blocks generalizing s with
  | nil => exact .nil s
  | cons block rest ih => exact (Exec.executeTxs_trace e block.1 block.2 s).trans (ih _)

end

end AfroLink
