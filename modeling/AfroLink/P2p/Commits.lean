import AfroLink.Daemon.Chain
import AfroLink.Node.Node

/-!
# Committing and persisting

A thread that drives the node takes what was committed out of it while it holds the node's lock, and hands it to the
sink after it has let go. Between the two any other thread can do the same.
-/

namespace AfroLink

/-- What `drive` and `apply_block` read before they release the node. -/
structure Captured where
  actions : List Action
  receipts : List TxReceipt
  state : Store
  height : Height

def Captured.finalised (c : Captured) : List (Finalised Store) :=
  c.actions.filterMap fun
    | .committed block commit => some ⟨block, commit, c.receipts, c.state⟩
    | _ => none

/-- The node, the sink, and what each thread has captured and not yet handed over. -/
structure Committers where
  node : Node
  sink : Persist Store
  threads : ℕ → List (Finalised Store)

namespace Committers

inductive Move where
  /-- A thread without anything to hand over takes the node's lock. -/
  | act (thread : ℕ) (input : Node.Input)
  /-- A thread calls the sink. -/
  | persist (thread : ℕ)

variable [Crypto] [StateRoot]

def capture (n : Node) (input : Node.Input) : Node × Captured :=
  let (n, actions) := n.step input
  (n, ⟨actions, n.lastReceipts, n.store, n.height⟩)

def step (s : Committers) : Move → Committers × List (Finalised Store)
  | .act thread input =>
    match s.threads thread with
    | [] =>
      let (node, captured) := capture s.node input
      ({ s with node, threads := Function.update s.threads thread captured.finalised }, [])
    | _ :: _ => (s, [])
  | .persist thread =>
    match s.threads thread with
    | [] => (s, [])
    | f :: rest =>
      ({ s with sink := s.sink.committed f, threads := Function.update s.threads thread rest }, [f])

def run (s : Committers) : List Move → Committers × List (Finalised Store)
  | [] => (s, [])
  | move :: rest =>
    let (s, calls) := s.step move
    let (s, more) := s.run rest
    (s, calls ++ more)

def StepsWhen (C : Committers → Move → Prop) (s : Committers) (calls : List (Finalised Store)) (s' : Committers) :
    Prop := ∃ move, C s move ∧ s.step move = (s', calls)

end Committers

end AfroLink
