import AfroLink.Node.Lemmas.Signing
import AfroLink.Node.Theorems.Blocks

/-!
# What a node puts its name to

Over all its lives a node signs at most one vote of each kind and one proposal a round.
-/

open Std

namespace AfroLink

/-! ## One signature a point -/

/-- A node lives on by what is done to it and by restarts, which keep the signing record and nothing else. -/
inductive Node.Lives [Crypto] [StateRoot] : Node → List Action → Node → Prop where
  | step (n : Node) (i : Node.Input) : Lives n (n.step i).2 (n.step i).1
  | restart {n n' : Node} (h : n'.signing.last = n.signing.last) : Lives n [] n'

theorem lives_never_sign_twice [Crypto] [StateRoot] {n n' : Node} {released : List Action}
    (h : Trace Node.Lives n released n') :
    (∀ v w : SignedVote, .broadcastVote v ∈ released → .broadcastVote w ∈ released →
      v.vote.height = w.vote.height → v.vote.round = w.vote.round → v.vote.voteType = w.vote.voteType → v = w) ∧
    (∀ p q : SignedProposal, .broadcastProposal p ∈ released → .broadcastProposal q ∈ released →
      p.proposal.height = q.proposal.height → p.proposal.round = q.proposal.round → p = q) := by
  have hstep : ∀ (hist : List Action) (m : Node) (as : List Action) (m' : Node), SignedInOrder hist m.signing →
      Node.Lives m as m' → SignedInOrder (hist ++ as) m'.signing := by
    intro hist m as m' hist_ok hlives
    cases hlives with
    | step i => exact m.step_signedInOrder i hist_ok
    | restart hl => exact hist_ok.append (.none rfl hl)
  have horder : SignedInOrder released n'.signing :=
    h.invariant_nil (I := fun hist m => SignedInOrder hist m.signing) hstep (.nil n.signing)
  constructor
  · intro v w hv hw hheight hround htype
    have heq := horder.eq_of_signPoint hv hw rfl (by simp [Action.signPoint, hheight, hround, htype])
    exact Action.broadcastVote.inj heq
  · intro p q hp hq hheight hround
    have heq := horder.eq_of_signPoint hp hq rfl (by simp [Action.signPoint, hheight, hround])
    exact Action.broadcastProposal.inj heq

namespace Sample

def restarted (n later : Node) : Node := { n with signing := later.signing }

theorem lives_restarted (n later : Node) : Node.Lives later [] (restarted n later) := .restart rfl

/-- The one validator decides the first height, loses everything but the record and starts over. -/
def revived : Node := restarted solo (solo.step (.start 200)).1

def twoLives : List Action := (solo.step (.start 200)).2 ++ (revived.step (.start 300)).2

theorem lives_never_sign_twice_revived :
    (∃ v, .broadcastVote v ∈ twoLives ∧ v.vote.voteType = .precommit) ∧
    ∀ v w : SignedVote, .broadcastVote v ∈ twoLives → .broadcastVote w ∈ twoLives →
      v.vote.height = w.vote.height → v.vote.round = w.vote.round → v.vote.voteType = w.vote.voteType → v = w := by
  have hrestart : Trace Node.Lives (solo.step (.start 200)).1 [] revived :=
    .single (lives_restarted solo _)
  have hsecond := hrestart.trans (.single (.step revived (.start 300)))
  rw [List.nil_append] at hsecond
  have hlives : Trace Node.Lives solo twoLives (revived.step (.start 300)).1 :=
    .cons (.step solo (.start 200)) hsecond
  refine ⟨⟨solo.ownVote .precommit (some (solo.buildBlock 200 []).header.id), ?_, rfl⟩,
    (lives_never_sign_twice hlives).1⟩
  decide +kernel

end Sample

/-! ## Proposals behind prevotes -/

/-- The proposals a node has while it handles an input: the one put before it is among them if accepted. -/
def Node.heldDuring [Crypto] [StateRoot] (n : Node) (i : Node.Input) : TreeMap Round SignedProposal :=
  match n.offer i with
  | some signed =>
    if n.acceptsProposal signed.proposal then n.proposals.insert signed.proposal.round signed else n.proposals
  | none => n.proposals

/-- A valid proposal that arrives in the name of the round's proposer has that validator's signature. -/
def Node.Authentic [Crypto] [StateRoot] (n : Node) (i : Node.Input) : Prop :=
  ∀ signed proposer, i = .event (.proposal signed) → n.acceptsProposal signed.proposal = true →
    n.validateBlock signed.proposal.block = true → n.validators.proposer n.height n.round = some proposer →
    signed.verifies proposer.publicKey = true

theorem prevotes_answer_authentic_proposals [Crypto] [StateRoot]
    (hsign : ∀ (sk : SecretKey) (domain : Domain) (message : Bytes),
      sk.publicKey.verify domain message (sk.sign domain message) = true)
    {n₀ n : Node} {hist : List Action}
    (hself : ∀ v ∈ n₀.validators.validators, v.address = n₀.address → v.publicKey = n₀.key.publicKey)
    (hrun : Trace (Node.StepsWhen Node.Authentic) n₀ hist n) {i : Node.Input} (hi : n.Authentic i)
    {v : SignedVote} {blockId : Hash32} (hv : .broadcastVote v ∈ (n.step i).2)
    (htype : v.vote.voteType = .prevote) (hblock : v.vote.blockId = some blockId) :
    ∃ signed proposer, (n.heldDuring i)[v.vote.round]? = some signed ∧ signed.proposal.blockId = blockId ∧
      signed.proposal.height = v.vote.height ∧ signed.proposal.round = v.vote.round ∧
      n.validators.proposer v.vote.height v.vote.round = some proposer ∧
      signed.verifies proposer.publicKey = true := by
  obtain ⟨rfl, signed, hanswers⟩ := Node.step_answers hv htype hblock
  obtain ⟨-, hheight, hround, ⟨proposer, hproposer, haddress⟩, -⟩ := Node.acceptsProposal_iff.1 hanswers.accepted
  rw [hround] at hproposer
  have hheld : (n.heldDuring i)[n.round]? = some signed := by
    simp [Node.heldDuring, hanswers.offered, hanswers.accepted, hround]
  refine ⟨signed, proposer, hheld, hanswers.blockId_eq, hheight, hround, hproposer, ?_⟩
  have hoffered := hanswers.offered
  cases i with
  | event e =>
    cases e with
    | proposal received =>
      cases hoffered
      exact hi signed proposer rfl hanswers.accepted hanswers.valid hproposer
    | vote | transaction | timeout => cases hoffered
  | start time =>
    -- the node's own proposal, signed with the key the set lists for it
    cases hoffered
    have hconfig := Node.run_config hrun
    simp only [Node.config, Prod.mk.injEq] at hconfig
    obtain ⟨-, hkey, hset⟩ := hconfig
    have hmem : proposer ∈ n₀.validators.validators := hset ▸ ValidatorSet.mem_of_proposer hproposer
    have hpk : proposer.publicKey = n.key.publicKey := by
      rw [hkey]
      refine hself proposer hmem (haddress.trans ?_)
      show n.address = n₀.address
      rw [Node.address, hkey, Node.address]
    rw [hpk]
    exact hsign n.key .blockId _
  | sync block commit => cases hoffered

namespace Sample

theorem prevotes_answer_authentic_proposals_bare :
    .broadcastVote (solo.ownVote .prevote (some bare.header.id)) ∈ (solo.step (.start 200)).2 ∧
    ∃ (signed : SignedProposal) (proposer : Validator), (solo.heldDuring (.start 200))[(0 : Round)]? = some signed ∧
      signed.proposal.blockId = bare.header.id ∧ signed.verifies proposer.publicKey = true := by
  have hi : ∀ n : Node, n.Authentic (.start 200) := fun n signed proposer h => nomatch h
  have hv : .broadcastVote (solo.ownVote .prevote (some bare.header.id)) ∈ (solo.step (.start 200)).2 := by
    decide +kernel
  have hself : ∀ v ∈ solo.validators.validators, v.address = solo.address → v.publicKey = solo.key.publicKey := by
    decide +kernel
  obtain ⟨signed, proposer, hheld, hid, -, -, -, hverifies⟩ :=
    prevotes_answer_authentic_proposals sign_verifies hself (.nil solo) (hi solo) hv rfl rfl
  exact ⟨hv, signed, proposer, hheld, hid, hverifies⟩

/-- The bare block in the name of the one validator, without a signature. -/
def unsigned : SignedProposal := { proposalOf bare 0 with signature := ⟨0⟩ }

theorem prevotes_unsigned_proposal :
    .broadcastVote (solo.ownVote .prevote (some bare.header.id)) ∈ (solo.step (.event (.proposal unsigned))).2 ∧
    (solo.validators.proposer 1 0).map (·.publicKey) = some (key 1).publicKey ∧
    (solo.heldDuring (.event (.proposal unsigned))).values = [unsigned] ∧
    unsigned.verifies (key 1).publicKey = false := by
  decide +kernel

end Sample

end AfroLink
