import AfroLink.Rpc.Query
import AfroLink.Store.ChainStore

/-!
# From a finalised block to the query server

`Persist` writes the state, then the block, then publishes the state to readers. The writes and the publication are
separate steps of a call, and several calls can be under way at once.
-/

namespace AfroLink

def StoreError.text : StoreError → String
  | corrupt what reason => "corrupt record at " ++ what ++ ": " ++ reason

/-- The state queries are answered from, and the height it is the state of. -/
structure Published (σ : Type) where
  at_ : Height
  state : σ

def Published.advance {σ : Type} (p : Published σ) (height : Height) (state : σ) : Published σ × Bool :=
  if height < p.at_ then (p, false) else (⟨height, state⟩, true)

structure Finalised (σ : Type) where
  block : Block
  commit : Commit
  receipts : List TxReceipt
  state : σ

def Finalised.height {σ : Type} (f : Finalised σ) : Height := f.block.header.height

inductive Stage where
  | entered
  /-- The state is on disk, the block is not. -/
  | persisted
  | stored
  | published
  | superseded
  | failed
deriving DecidableEq

/-- What all calls share: the store, the published view, and the first failure. -/
structure Persist (σ : Type) where
  store : ChainStore
  view : Published σ
  failure : Option String

namespace Persist

variable {σ : Type}

def fail (p : Persist σ) (what : String) : Persist σ := { p with failure := p.failure <|> some what }

variable [Crypto]

/-- The next step of a call; `disk` is what the database has to say about a write, if it is a complaint. -/
def proceed (p : Persist σ) (f : Finalised σ) (disk : Option String) : Stage → Persist σ × Stage
  | .entered =>
    match disk with
    | some e => (p.fail ("cannot store state at " ++ toString f.height.val ++ ": " ++ e), .failed)
    | none => (p, .persisted)
  | .persisted =>
    match disk, p.store.putBlock f.block f.commit f.receipts with
    | some e, _ => (p.fail ("cannot store block " ++ toString f.height.val ++ ": " ++ e), .failed)
    | none, .error e => (p.fail ("cannot store block " ++ toString f.height.val ++ ": " ++ e.text), .failed)
    | none, .ok store => ({ p with store }, .stored)
  | .stored =>
    let (view, moved) := p.view.advance f.height f.state
    ({ p with view }, if moved then .published else .superseded)
  | stage => (p, stage)

/-- A call on a disk that does not complain, from beginning to end. -/
def committed (p : Persist σ) (f : Finalised σ) : Persist σ :=
  let (p, stage) := p.proceed f none .entered
  let (p, stage) := p.proceed f none stage
  (p.proceed f none stage).1

end Persist

/-- The query server's view of the chain: what `Persist` has published. -/
abbrev LiveChain := Published MemoryStore

namespace LiveChain

variable [Crypto]

def prove (view : LiveChain) (key : StoreKey) : Height × Option Bytes × Smt.Proof :=
  (view.at_, view.state.getWithProof key)

def answer (view : LiveChain) (query : Query) : Option ProvedValue := do
  let key ← query.storeKey
  let (height, value, proof) := view.prove key
  return ⟨height, value, proof⟩

theorem answer_eq_some {view : LiveChain} {query : Query} {value : ProvedValue} :
    view.answer query = some value ↔ ∃ key, query.storeKey = some key ∧
      ⟨view.at_, (view.state.getWithProof key).1, (view.state.getWithProof key).2⟩ = value := by
  simp only [answer, prove, Option.bind_eq_bind, Option.pure_def, Option.bind_eq_some_iff, Option.some.injEq]

end LiveChain

end AfroLink
