import AfroLink.Crypto.Sample
import AfroLink.Witness.Lemmas

/-!
# A witness cannot rewrite what a wallet saw

The wallet remembers the head of its last session and demands a proof that the next one continues it.
-/

namespace AfroLink

/-- A later session: the head a witness offered, and the proof it offered with it. -/
structure Session where
  head : SignedTreeHead
  proof : ConsistencyProof

def latestHead : SignedTreeHead → List Session → SignedTreeHead
  | s, [] => s
  | _, next :: rest => latestHead next.head rest

section

variable [Crypto]

/-- Each session's head was accepted against the one remembered. -/
def WitnessSet.Continued (set : WitnessSet) : SignedTreeHead → List Session → Prop
  | _, [] => True
  | s, next :: rest => set.checkContinuity (.fromHead s) next.head next.proof = .ok () ∧ set.Continued next.head rest

def sessionPairs : SignedTreeHead → List Session → List (Hash32 × Hash32)
  | _, [] => []
  | s, next :: rest => next.proof.bothJoined s.head.root ++ sessionPairs next.head rest

/-- All that is hashed of two entries and in checking the proofs. -/
def auditInputs (s : SignedTreeHead) (sessions : List Session) (e₁ e₂ : LogEntry) (p₁ p₂ : MerkleProof) : List Bytes :=
  entryInput e₁ :: entryInput e₂ ::
    (p₁.joined e₁.leaf ++ (sessionPairs s sessions ++ p₂.joined e₂.leaf)).map nodeInput

open MerkleProof (turns) in
theorem WitnessSet.Continued.leads {set : WitnessSet} {s : SignedTreeHead} {sessions : List Session}
    {pairs : Set (Hash32 × Hash32)} (hinj : Set.InjOn (fun p : Hash32 × Hash32 => nodeHash p.1 p.2) pairs)
    (h : set.Continued s sessions) (hpairs : ∀ q ∈ sessionPairs s sessions, q ∈ pairs) {i : Nat} {x : Hash32}
    (hi : i < s.head.size.val) (hleads : Leads nodeHash pairs s.head.root (turns i s.head.size.val) x) :
    Leads nodeHash pairs (latestHead s sessions).head.root (turns i (latestHead s sessions).head.size.val) x := by
  induction sessions generalizing s with
  | nil => exact hleads
  | cons next rest ih =>
    obtain ⟨hcheck, hrest⟩ := h
    have hverify := verify_of_checkContinuity hcheck
    obtain ⟨hi, hnext⟩ := ConsistencyProof.leads_of_verify hinj hverify
      (fun q hq => hpairs q (List.mem_append_left _ hq)) hi hleads
    exact ih hrest (fun q hq => hpairs q (List.mem_append_right _ hq)) hi hnext

end

/-- Over any number of accepted sessions, the entry a witness shows at an index stays the entry it showed there. -/
theorem witness_cannot_rewrite [Crypto] (set : WitnessSet) (chain₁ chain₂ : ChainId) (s : SignedTreeHead)
    (sessions : List Session) (i : U64) (e₁ e₂ : LogEntry) (p₁ p₂ : MerkleProof) (o₁ o₂ : Observation)
    (hfree : CollisionFree (auditInputs s sessions e₁ e₂ p₁ p₂))
    (h₁ : set.observe chain₁ s i e₁ p₁ = .ok o₁) (hsessions : set.Continued s sessions)
    (h₂ : set.observe chain₂ (latestHead s sessions) i e₂ p₂ = .ok o₂) : e₁ = e₂ := by
  let pairs : Set (Hash32 × Hash32) := { q | q ∈ p₁.joined e₁.leaf ++ (sessionPairs s sessions ++ p₂.joined e₂.leaf) }
  have hinputs : ∀ q ∈ pairs, nodeInput q ∈ auditInputs s sessions e₁ e₂ p₁ p₂ := fun q hq =>
    .tail _ (.tail _ (List.mem_map_of_mem hq))
  have hinj : Set.InjOn (fun p : Hash32 × Hash32 => nodeHash p.1 p.2) pairs := fun p hp q hq heq =>
    hfree.nodeHash_inj (hinputs p hp) (hinputs q hq) heq
  have hjoined₁ : ∀ q ∈ p₁.joined e₁.leaf, q ∈ pairs := fun q hq => List.mem_append_left _ hq
  have hjoined : ∀ q ∈ sessionPairs s sessions, q ∈ pairs := fun q hq =>
    List.mem_append_right _ (List.mem_append_left _ hq)
  have hjoined₂ : ∀ q ∈ p₂.joined e₂.leaf, q ∈ pairs := fun q hq =>
    List.mem_append_right _ (List.mem_append_right _ hq)
  obtain ⟨hi, hfirst⟩ := MerkleProof.leads_of_verify (WitnessSet.verify_of_observe h₁) hjoined₁
  obtain ⟨-, hshown⟩ := MerkleProof.leads_of_verify (WitnessSet.verify_of_observe h₂) hjoined₂
  have hlast := hsessions.leads hinj hjoined hi hfirst
  exact hfree.leaf_inj (.head _) (.tail _ (.head _)) (hlast.unique hinj hshown)

namespace Sample

def seen (n : Nat) : LogEntry := ⟨Fin.ofNat _ n, Fin.ofNat _ n, Fin.ofNat _ n⟩

def seenLog (n : Nat) : WitnessLog := ⟨chain, .fromPublicKey (key 0).publicKey, (List.range n).map fun i => seen (i + 1)⟩

def seenHead (n : Nat) : SignedTreeHead := ((seenLog n).head 0).sign (key 0)

def wallet : WitnessSet where
  witnesses := [.new (key 0).publicKey (107, 101) "one"]
  nonempty := by simp
  distinct := by simp

def grownTwice : List Session :=
  [⟨seenHead 3, ⟨2, 3, [(seen 3).leaf]⟩⟩,
    ⟨seenHead 5, ⟨3, 5, [(seen 3).leaf, (seen 4).leaf, nodeHash (seen 1).leaf (seen 2).leaf, (seen 5).leaf]⟩⟩]

theorem witness_cannot_rewrite_five :
    wallet.Continued (seenHead 2) grownTwice ∧ latestHead (seenHead 2) grownTwice = seenHead 5 ∧
      seen 1 = ⟨1, 1, 1⟩ := by
  have hsessions : wallet.Continued (seenHead 2) grownTwice := ⟨by decide +kernel, by decide +kernel, trivial⟩
  refine ⟨hsessions, rfl, ?_⟩
  refine witness_cannot_rewrite wallet chain chain (seenHead 2) grownTwice 0 (seen 1) ⟨1, 1, 1⟩
    ⟨0, 2, [(seen 2).leaf]⟩ ⟨0, 5, [(seen 5).leaf, nodeHash (seen 3).leaf (seen 4).leaf, (seen 2).leaf]⟩
    ⟨.fromPublicKey (key 0).publicKey, (107, 101), 1, 1, 2, (seenLog 2).root, 0⟩
    ⟨.fromPublicKey (key 0).publicKey, (107, 101), 1, 1, 5, (seenLog 5).root, 0⟩ ?_ ?_ hsessions ?_
  all_goals decide +kernel

end Sample

end AfroLink
