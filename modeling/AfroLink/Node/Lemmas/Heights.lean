import AfroLink.Node.Lemmas.Prevotes
import AfroLink.Store.Lemmas

/-!
# One height at a time

An input retires at most one height, and nothing the node does comes after that.
-/

open Std (TreeMap)

namespace AfroLink

/-- Every transaction of the block has a position that is a `u32`. -/
def Block.Indexable (block : Block) : Prop := block.transactions.length ≤ 2 ^ 32

namespace Node

/-- The block is of the node's height and can be indexed. -/
def Fits (n : Node) (block : Block) : Prop := block.header.height = n.height ∧ block.Indexable

def Level (n : Node) : Prop :=
  ∀ (round : Round) (signed : SignedProposal), n.proposals[round]? = some signed → n.Fits signed.proposal.block

def Input.Fits : Input → Prop
  | .event (.proposal signed) =>
    signed.proposal.block.header.height = signed.proposal.height ∧ signed.proposal.block.Indexable
  | _ => True

theorem Level.congr {n n' : Node} (h : n.Level) (hp : n'.proposals = n.proposals) (hh : n'.height = n.height) :
    n'.Level := by
  unfold Level Fits
  rw [hp, hh]
  exact h

theorem Level.adopt {n : Node} (h : n.Level) {signed : SignedProposal} (hs : n.Fits signed.proposal.block) :
    (n.adopt signed).Level := by
  intro round other hother
  rw [show (n.adopt signed).proposals = n.proposals.insert signed.proposal.round signed from rfl,
    TreeMap.getElem?_insert] at hother
  split at hother
  · cases hother
    exact hs
  · exact h round other hother

/-- What an input makes of a node: it stays at its height, or retires it as the last thing it does. -/
inductive Retires (n : Node) : Node × List Action → Prop where
  | stays {n' : Node} {as : List Action} (height : n'.height = n.height) (level : n'.Level)
      (quiet : ∀ a ∈ as, a.isCommitted = false) : Retires n (n', as)
  | moves {n' : Node} {as : List Action} {b : Block} {c : Commit} (height : n'.height = n.height.next)
      (proposals : n'.proposals = ∅) (quiet : ∀ a ∈ as, a.isCommitted = false) (fits : n.Fits b)
      (receipts : n'.lastReceipts.length = b.transactions.length) : Retires n (n', as ++ [.committed b c])

theorem Retires.after {n m : Node} {as : List Action} {r : Node × List Action} (h : Retires m r)
    (hheight : m.height = n.height) (has : ∀ a ∈ as, a.isCommitted = false) : Retires n (r.1, as ++ r.2) := by
  have hquiet : ∀ {bs : List Action}, (∀ a ∈ bs, a.isCommitted = false) → ∀ a ∈ as ++ bs, a.isCommitted = false := by
    intro bs hbs a ha
    exact (List.mem_append.1 ha).elim (has a) (hbs a)
  cases h with
  | stays height level quiet => exact .stays (height.trans hheight) level (hquiet quiet)
  | @moves n' bs b c height proposals quiet fits receipts =>
    rw [← List.append_assoc]
    refine .moves (height.trans (by rw [hheight])) proposals (hquiet quiet) ?_ receipts
    exact ⟨fits.1.trans hheight, fits.2⟩

section

variable {n m : Node}

theorem SameCore.height_eq (h : SameCore n m) : m.height = n.height := by
  obtain ⟨_, _, _, _, _, _, rfl⟩ := h
  rfl

theorem SameCore.proposals_eq (h : SameCore n m) : m.proposals = n.proposals := by
  obtain ⟨_, _, _, _, _, _, rfl⟩ := h
  rfl

theorem Level.sameCore (h : n.Level) (hm : SameCore n m) : m.Level := h.congr hm.proposals_eq hm.height_eq

theorem selectFrom_length (nextNonce : Address → U64) (queue : List ((Address × U64) × Transaction)) :
    ∀ wanted count bytes, count ≤ MAX_BLOCK_TRANSACTIONS →
      (Mempool.selectFrom nextNonce queue wanted count bytes).length + count ≤ MAX_BLOCK_TRANSACTIONS := by
  induction queue with
  | nil =>
    intro wanted count bytes hcount
    simpa [Mempool.selectFrom] using hcount
  | cons entry rest ih =>
    obtain ⟨⟨sender, nonce⟩, t⟩ := entry
    intro wanted count bytes hcount
    unfold Mempool.selectFrom
    dsimp only
    split
    · exact ih _ _ _ hcount
    · split_ifs with hnonce hfull
      · exact ih _ _ _ hcount
      · simpa using hcount
      · rename_i want _
        have hrest := ih (some (sender, some (want.saturatingAdd 1))) (count + 1) (bytes + (encode t).length)
          (by omega)
        rw [List.length_cons]
        omega

variable [Crypto]

theorem Retires.cast (hheight : m.height = n.height) (hlevel : m.Level) (voteType : VoteType)
    (blockId : Option Hash32) : Retires n ((m.cast voteType blockId).1, (m.cast voteType blockId).2) := by
  have hcast : (m.cast voteType blockId).1.height = m.height :=
    cast_proj (·.height) m voteType blockId fun _ _ _ _ _ => rfl
  refine .stays (hcast.trans hheight) (hlevel.congr ?_ hcast) (cast_not_committed m voteType blockId)
  exact cast_proj (·.proposals) m voteType blockId fun _ _ _ _ _ => rfl

variable [StateRoot]

theorem retired_receipts (n : Node) (block : Block) (c : Commit) :
    (n.retired block c).lastReceipts.length = block.transactions.length := by
  have hlen := congrArg List.length (Exec.executeTxs_receipts n.executor ⟨n.height, block.header.time⟩
    block.transactions n.store)
  rw [List.length_map, List.length_map] at hlen
  rw [← hlen]
  exact List.length_map _

theorem Retires.retired {block : Block} (hfits : n.Fits block) (c : Commit) :
    Retires n (n.retired block c, [.committed block c]) := by
  have hmoves : Retires n (n.retired block c, [] ++ [.committed block c]) :=
    .moves rfl rfl (by simp) hfits (retired_receipts n block c)
  exact hmoves

theorem ownProposal_fits (h : n.Level) (time : Timestamp) : n.Fits (n.ownProposal time).proposal.block := by
  show n.Fits (n.blockToPropose time).1
  unfold blockToPropose
  dsimp only
  split
  · rename_i prev _ hlast
    obtain ⟨round, hround⟩ := TreeMap.mem_values.1 (List.mem_of_getLast? hlast)
    exact h round prev hround
  · refine ⟨rfl, ?_⟩
    have hselect := selectFrom_length (fun address => (Exec.readOrFresh n.store address).nonce)
      n.mempool.byKey.toList none 0 0 (Nat.zero_le _)
    exact (Nat.le_add_right _ 0).trans (hselect.trans (by decide))

theorem offer_fits {i : Input} {signed : SignedProposal} (h : n.Level) (hi : i.Fits) (hoffer : n.offer i = some signed)
    (haccept : n.acceptsProposal signed.proposal = true) : n.Fits signed.proposal.block := by
  cases i with
  | event e =>
    cases e with
    | proposal offered =>
      obtain rfl : offered = signed := Option.some.inj hoffer
      exact ⟨hi.1.trans (acceptsProposal_iff.1 haccept).2.1, hi.2⟩
    | vote | transaction | timeout => cases hoffer
  | start time =>
    obtain rfl : n.ownProposal time = signed := Option.some.inj hoffer
    exact ownProposal_fits h time
  | sync => cases hoffer

variable {n₀ n' : Node} {i : Input} {as : List Action}

theorem Move.retires (h : Move n₀ i n as n') (hi : i.Fits) (hn : n.Level) : Retires n (n', as) := by
  cases h with
  | quiet hcore _ _ has =>
    exact .stays hcore.height_eq (hn.sameCore hcore) fun a ha => isCommitted_of_isQuiet (has a ha)
  | prevote hpre hoffer haccept _ =>
    have hlevel : n₀.Level := hn.congr hpre.proposals_eq.symm hpre.height_eq.symm
    obtain ⟨hheight, hindexable⟩ := offer_fits hlevel hi hoffer haccept
    refine .cast ?_ (hn.adopt ⟨hheight.trans hpre.height_eq.symm, hindexable⟩) _ _
    rfl
  | prevoteNil | precommitNil | lock =>
    refine .cast ?_ (hn.congr ?_ ?_) _ _ <;> rfl
  | @receive signed =>
    have hheight : (n.fileVote signed).1.height = n.height := fileVote_proj (·.height) n signed fun _ _ => rfl
    exact .stays hheight (hn.congr (fileVote_proj (·.proposals) n signed fun _ _ => rfl) hheight) (by simp)
  | propose | nextRound => exact .stays rfl (hn.congr rfl rfl) (by simp [Action.isCommitted])
  | commit _ hfor =>
    obtain ⟨round, hround, -, -⟩ := proposalFor_eq_some.1 hfor
    exact .retired (hn round _ hround) _
  | sync _ hvalid _ =>
    obtain ⟨⟨hheight, -⟩, hsize, -⟩ := validateBlock_iff.1 hvalid
    refine .retired ⟨hheight, ?_⟩ _
    unfold Block.withinSizeLimits at hsize
    split_ifs at hsize with hcount
    exact (not_lt.1 hcount).trans (by decide)

theorem Handled.retires (h : Handled n₀ i n as n') (hi : i.Fits) (hn : n.Level) : Retires n (n', as) := by
  induction h with
  | nil n => exact .stays rfl hn (by simp)
  | last h => exact h.retires hi hn
  | cons h hmore _ ih =>
    cases h.retires hi hn with
    | stays height level quiet => exact (ih level).after height quiet
    | moves => cases hmore _ (List.mem_append_right _ (List.mem_singleton_self _))

theorem step_retires (h : n.Level) {i : Input} (hi : i.Fits) : Retires n (n.step i) := (step_handled n i).retires hi h

end

end Node

end AfroLink
