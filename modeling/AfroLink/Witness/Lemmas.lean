import AfroLink.Crypto.Lemmas.Openings
import AfroLink.State.Lemmas.Nodes
import AfroLink.Witness.Audit

/-!
# What an accepted check says of the roots
-/

namespace AfroLink

instance : RoundTrip LogEntry where
  readable _ := true
  reads e _ := (reads e.height rfl).bind ((reads e.blockId rfl).bind (reads e.observedAt rfl).last)

def entryInput (e : LogEntry) : Bytes := absorbDomain .witnessEntry ++ encode e

variable [Crypto] {set : WitnessSet}

theorem CollisionFree.leaf_inj {inputs : List Bytes} (h : CollisionFree inputs) {e e' : LogEntry}
    (he : entryInput e ∈ inputs) (he' : entryInput e' ∈ inputs) (heq : e.leaf = e'.leaf) : e = e' :=
  encode_inj rfl rfl (h.hash_inj he he' heq).2

namespace WitnessSet

theorem verify_of_observe {chainId : ChainId} {sth : SignedTreeHead} {index : U64} {entry : LogEntry}
    {proof : MerkleProof} {o : Observation} (h : set.observe chainId sth index entry proof = .ok o) :
    proof.verify sth.head.root entry.leaf index.val sth.head.size.val = .ok () := by
  obtain ⟨witness, -, h⟩ := Except.bind_eq_ok.1 h
  obtain ⟨-, h⟩ := Except.guard_eq_ok.1 h
  obtain ⟨-, h⟩ := Except.guard_eq_ok.1 h
  obtain ⟨⟨⟩, hverify, -⟩ := Except.bind_eq_ok.1 h
  exact Except.mapError_eq_ok.1 hverify

theorem verify_of_checkContinuity {remembered : Remembered} {sth : SignedTreeHead} {proof : ConsistencyProof}
    (h : set.checkContinuity remembered sth proof = .ok ()) :
    proof.verify remembered.root sth.head.root remembered.size.val sth.head.size.val = .ok () := by
  obtain ⟨witness, -, h⟩ := Except.bind_eq_ok.1 h
  obtain ⟨-, h⟩ := Except.guard_eq_ok.1 h
  obtain ⟨-, h⟩ := Except.guard_eq_ok.1 h
  obtain ⟨-, h⟩ := Except.guard_eq_ok.1 h
  exact Except.mapError_eq_ok.1 h

end WitnessSet

end AfroLink
