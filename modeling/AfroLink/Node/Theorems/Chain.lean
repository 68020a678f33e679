import AfroLink.Node.Lemmas.Certificates
import AfroLink.Node.Theorems.Blocks

/-!
# A node keeps a certified chain

Whatever reaches it, a node's state is that of executing the blocks it has announced, each with a commit that anyone
who knows the set can check.
-/

namespace AfroLink

/-- Where a chain stands: all that the next block of it is executed and certified against. -/
structure ChainPoint where
  chainId : ChainId
  validators : ValidatorSet
  store : Store
  height : Height

def Action.announced : Action → Option (Block × Commit)
  | .committed block commit => some (block, commit)
  | _ => none

/-- The blocks a node has committed, in order, with their certificates. -/
def announced (actions : List Action) : List (Block × Commit) := actions.filterMap Action.announced

section

variable [Crypto] [StateRoot]

namespace ChainPoint

def retire (p : ChainPoint) (block : Block) : ChainPoint :=
  { p with
    store := ((Executor.mk p.chainId).executeBlock p.store ⟨p.height, block.header.time⟩ block.transactions).1
    height := p.height.next }

/-- A block is added with a certificate that is about it, of the height it is added at, and that verifies. -/
inductive Grows : ChainPoint → List (Block × Commit) → ChainPoint → Prop where
  | retire {p : ChainPoint} {block : Block} {commit : Commit} (hid : commit.blockId = block.header.id)
      (hheight : commit.height = p.height) (hverify : commit.verify p.chainId p.validators = .ok ()) :
      Grows p [(block, commit)] (p.retire block)

/-- What a block is executed with, as its certificate tells it. -/
def contextOf (entry : Block × Commit) : BlockContext × List Transaction :=
  (⟨entry.2.height, entry.1.header.time⟩, entry.1.transactions)

variable {p q : ChainPoint} {chain : List (Block × Commit)}

theorem Grows.store_eq (h : Trace Grows p chain q) :
    q.store = executeBlocks ⟨p.chainId⟩ (chain.map contextOf) p.store := by
  induction h with
  | nil p => rfl
  | cons hm _ ih =>
    obtain ⟨-, hheight, -⟩ := hm
    rw [ih, List.singleton_append, List.map_cons, contextOf, executeBlocks, hheight]
    rfl

theorem Grows.certified (h : Trace Grows p chain q) {i : ℕ} {block : Block} {commit : Commit}
    (hi : chain[i]? = some (block, commit)) :
    commit.blockId = block.header.id ∧ commit.height = Height.next^[i] p.height ∧
      commit.verify p.chainId p.validators = .ok () := by
  induction h generalizing i with
  | nil p => simp at hi
  | cons hm _ ih =>
    obtain ⟨hid, hheight, hverify⟩ := hm
    cases i with
    | zero =>
      cases hi
      exact ⟨hid, hheight, hverify⟩
    | succ i => exact ih hi

end ChainPoint

/-! ## Runs -/

namespace Node

omit [Crypto] [StateRoot] in
def point (n : Node) : ChainPoint := ⟨n.chainId, n.validators, n.store, n.height⟩

/-- The node has got from `p` to where it is by the blocks announced in `hist`. -/
def Reaches (p : ChainPoint) (hist : List Action) (n : Node) : Prop :=
  n.CountsVotes ∧ Trace ChainPoint.Grows p (announced hist) n.point

variable {p : ChainPoint} {n n' m : Node} {i : Input} {as hist : List Action} {block : Block} {commit : Commit}

omit [StateRoot] in
theorem countsVotes_of_empty (hprevotes : n.prevotes = ∅) (hprecommits : n.precommits = ∅) : n.CountsVotes := by
  intro voteType round
  cases voteType <;> simpa [voteSetAt, voteSets, hprevotes, hprecommits] using .new _

theorem Reaches.quiet (h : Reaches p hist n) (has : ∀ a ∈ as, a.isCommitted = false) (hcounts : n'.CountsVotes)
    (hpoint : n'.point = n.point) : Reaches p (hist ++ as) n' := by
  have hnone : as.filterMap Action.announced = [] := by
    refine List.filterMap_eq_nil_iff.2 fun a ha => ?_
    cases a with
    | committed => cases has _ ha
    | _ => rfl
  rw [Reaches, announced, List.filterMap_append, hnone, List.append_nil, hpoint]
  exact ⟨hcounts, h.2⟩

theorem Reaches.cast (h : Reaches p hist n) (hcounts : m.CountsVotes) (hpoint : m.point = n.point)
    (voteType : VoteType) (value : Option Hash32) :
    Reaches p (hist ++ (m.cast voteType value).2) (m.cast voteType value).1 :=
  h.quiet (cast_not_committed m voteType value) (hcounts.cast voteType value)
    ((cast_proj point m voteType value fun _ _ _ _ _ => rfl).trans hpoint)

theorem Reaches.retired (h : Reaches p hist n) (hid : commit.blockId = block.header.id)
    (hheight : commit.height = n.height) (hverify : commit.verify n.chainId n.validators = .ok ()) :
    Reaches p (hist ++ [.committed block commit]) (n.retired block commit) := by
  refine ⟨countsVotes_of_empty rfl rfl, ?_⟩
  rw [announced, List.filterMap_append]
  exact h.2.trans (.single (.retire (p := n.point) hid hheight hverify))

theorem Reaches.move (h : Reaches p hist n) (hmove : Move m i n as n') : Reaches p (hist ++ as) n' := by
  cases hmove with
  | quiet hcore _ _ has =>
    obtain ⟨_, _, _, _, _, _, rfl⟩ := hcore
    exact h.quiet (fun a ha => isCommitted_of_isQuiet (has a ha)) h.1 rfl
  | prevote => exact h.cast (m := n.adopt _) h.1 rfl _ _
  | prevoteNil => exact h.cast (m := n.atStep .prevote) h.1 rfl _ _
  | precommitNil => exact h.cast (m := n.atStep .precommit) h.1 rfl _ _
  | receive => exact h.quiet (by simp) h.1.fileVote (fileVote_proj point _ _ fun _ _ => rfl)
  | lock => exact h.cast (m := n.locked _) h.1 rfl _ _
  | propose => exact h.quiet (by simp [Action.isCommitted]) h.1 rfl
  | nextRound => exact h.quiet (by simp [Action.isCommitted]) h.1 rfl
  | commit hq hfor =>
    obtain ⟨-, -, hid, -⟩ := proposalFor_eq_some.1 hfor
    exact h.retired hid.symm rfl (h.1.certifies hq)
  | sync _ hb hc =>
    obtain ⟨⟨hheight, -⟩, -⟩ := validateBlock_iff.1 hb
    exact h.retired hc.1 (hc.2.1.trans hheight) hc.2.2

theorem Reaches.run (h : Reaches p hist n) (inputs : List Input) :
    Reaches p (hist ++ (n.run inputs).2) (n.run inputs).1 := by
  induction inputs generalizing hist n with
  | nil => rwa [run, List.append_nil]
  | cons i rest ih =>
    have hstep : Reaches p (hist ++ (n.step i).2) (n.step i).1 :=
      (step_moves n i).invariant (fun _ _ _ _ hk hmove => hk.move hmove) h
    have hrest := ih hstep
    rwa [List.append_assoc] at hrest

end Node

end

section

variable [Crypto] [StateRoot] (chainId : ChainId) (key : SecretKey) (validators : ValidatorSet) (store : Store)
  (genesis : Block) (signing : SignRecord) (inputs : List Node.Input)

theorem Node.reaches_run :
    let n := new chainId key validators store genesis signing
    Reaches n.point (n.run inputs).2 (n.run inputs).1 := by
  intro n
  have hstart : Reaches n.point [] n := ⟨countsVotes_of_empty rfl rfl, .nil _⟩
  exact hstart.run inputs

/-- Whatever inputs reach a node and in whatever order, the blocks it announces are a chain from genesis on, each with
a certificate of its height that verifies, and the node holds what executing them in that order gives. -/
theorem node_keeps_certified_chain :
    let n : Node := .new chainId key validators store genesis signing
    let chain := announced (n.run inputs).2
    Trace ChainPoint.Grows n.point chain (n.run inputs).1.point ∧
    (n.run inputs).1.store = executeBlocks ⟨chainId⟩ (chain.map ChainPoint.contextOf) store := by
  intro n chain
  obtain ⟨-, hgrown⟩ := Node.reaches_run chainId key validators store genesis signing inputs
  exact ⟨hgrown, ChainPoint.Grows.store_eq hgrown⟩

/-- In every run the evidence that a filed vote completes is evidence that staking accepts. -/
theorem accusations_proved (signed : SignedVote) (evidence : Equivocation)
    (h : (((Node.new chainId key validators store genesis signing).run inputs).1.fileVote signed).2 =
      some (.equivocated evidence)) :
    provesEquivocation evidence validators = true := by
  obtain ⟨hcounts, hgrown⟩ := Node.reaches_run chainId key validators store genesis signing inputs
  have hset := hgrown.preserves (I := (·.validators = validators)) (by rintro _ _ _ hs ⟨⟩; exact hs) rfl
  simp only [Node.fileVote] at h
  split at h
  · cases h
  · rename_i hadd
    cases h
    exact hset ▸ (hcounts _ _).proves hadd

/-- Two nodes of one chain that commit different blocks as their `i`-th, in one round of it, hold between them evidence
of equivocation, as staking accepts it, against more of the set than may be at fault. -/
theorem conflicting_nodes_convict (key' : SecretKey) (signing' : SignRecord) (inputs' : List Node.Input) (i : ℕ)
    (block block' : Block) (commit commit' : Commit)
    (h : (announced ((Node.new chainId key validators store genesis signing).run inputs).2)[i]? = some (block, commit))
    (h' : (announced ((Node.new chainId key' validators store genesis signing').run inputs').2)[i]? =
      some (block', commit'))
    (hround : commit.round = commit'.round) (hne : block.header.id ≠ block'.header.id) :
    ∃ culprits : Finset Address, validators.maxByzantinePower.val < validators.electorate.weightOf culprits ∧
      ∀ a ∈ culprits, ∃ first ∈ commit.signatures, ∃ second ∈ commit'.signatures,
        provesEquivocation ⟨a, first, second⟩ validators = true := by
  obtain ⟨hid, hheight, hverify⟩ := ChainPoint.Grows.certified (Node.reaches_run ..).2 h
  obtain ⟨hid', hheight', hverify'⟩ := ChainPoint.Grows.certified (Node.reaches_run ..).2 h'
  have hat : commit.height = commit'.height := hheight.trans hheight'.symm
  have hblock : commit.blockId ≠ commit'.blockId := by rwa [hid, hid']
  refine ⟨commit.signers chainId validators ∩ commit'.signers chainId validators, ?_, fun a ha => ?_⟩
  · rw [← ValidatorSet.electorate_tolerance]
    exact (Commit.verify_ok hverify).tolerance_lt_inter (Commit.verify_ok hverify')
  · obtain ⟨hfirst, hsecond⟩ := Finset.mem_inter.1 ha
    obtain ⟨-, first, hmem, hwho, hh, hr, ht, hb, -, hsigns⟩ := Finset.mem_filter.1 hfirst
    obtain ⟨-, second, hmem', rfl, hh', hr', ht', hb', -, hsigns'⟩ := Finset.mem_filter.1 hsecond
    refine ⟨first, hmem, second, hmem', ValidatorSet.convicts hsigns hsigns' hwho (hh.trans (hat.trans hh'.symm))
      (hr.trans (hround.trans hr'.symm)) (ht.trans ht'.symm) fun heq => hblock ?_⟩
    exact Option.some.inj (hb.symm.trans (heq.trans hb'))

end

namespace Sample

theorem solo_announces {block : Block}
    (h : solo.validateBlock block = true ∧ solo.Certifies block (soloCommit block)) :
    (announced (solo.run [.sync block (soloCommit block)]).2)[0]? = some (block, soloCommit block) := by
  simp [Node.run, Node.step, Node.applySynced_of_certified h.1 h.2, announced, Action.announced]

theorem accusations_proved_solo :
    provesEquivocation ⟨addressOf 1, solo.ownVote .prevote none, solo.ownVote .prevote (some 5)⟩ alone = true :=
  accusations_proved chain (key 1) alone (funded 0) genesis (.inMemory none)
    [.event (.vote (solo.ownVote .prevote none))] (solo.ownVote .prevote (some 5)) _ (by decide +kernel)

theorem conflicting_nodes_convict_solo :
    bare.header.id ≠ forged.header.id ∧
    ∃ culprits : Finset Address, alone.maxByzantinePower.val < alone.electorate.weightOf culprits ∧
      ∀ a ∈ culprits, ∃ first ∈ (soloCommit bare).signatures, ∃ second ∈ (soloCommit forged).signatures,
        provesEquivocation ⟨a, first, second⟩ alone = true := by
  obtain ⟨hbare, hforged, hne⟩ :
      (solo.validateBlock bare = true ∧ solo.Certifies bare (soloCommit bare)) ∧
      (solo.validateBlock forged = true ∧ solo.Certifies forged (soloCommit forged)) ∧
      bare.header.id ≠ forged.header.id := by decide +kernel
  exact ⟨hne, conflicting_nodes_convict chain (key 1) alone (funded 0) genesis (.inMemory none) _ (key 1)
    (.inMemory none) _ 0 bare forged _ _ (solo_announces hbare) (solo_announces hforged) rfl hne⟩

end Sample

end AfroLink
