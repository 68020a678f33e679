import AfroLink.Node.Lemmas.Prevotes

/-!
# Locks within a height

A node that has precommitted a block stays locked on it until its own prevotes justify another, as long as no nil
quorum and no equivocation takes the lock's ground away.
-/

open Std

namespace AfroLink

namespace Node

variable [Crypto]

/-! ## Quorums of other rounds -/

variable {signed : SignedVote} {n : Node}

theorem fileVote_quorumAt_of_ne {voteType : VoteType} {round : Round}
    (h : signed.vote.voteType = voteType → signed.vote.round ≠ round) :
    (n.fileVote signed).1.quorumAt voteType round = n.quorumAt voteType round := by
  rw [fileVote_fst]
  unfold quorumAt
  cases htype : signed.vote.voteType with
  | prevote =>
    cases voteType with
    | prevote =>
      have hne : signed.vote.round ≠ round := h htype
      simp [withVoteSets, voteSets, TreeMap.getElem?_insert, hne]
    | precommit => rfl
  | precommit =>
    cases voteType with
    | prevote => rfl
    | precommit =>
      have hne : signed.vote.round ≠ round := h htype
      simp [withVoteSets, voteSets, TreeMap.getElem?_insert, hne]

theorem filed_quorumAt_of_ne {voteType : VoteType} {round : Round}
    (h : signed.vote.voteType = voteType → signed.vote.round ≠ round) :
    (n.filed signed).quorumAt voteType round = n.quorumAt voteType round := by
  unfold filed
  split
  · rfl
  · exact fileVote_quorumAt_of_ne h

theorem cast_signing (n : Node) (voteType : VoteType) (blockId : Option Hash32) :
    (n.cast voteType blockId).1.signing = (n.signing.claim ⟨n.height, n.round, voteType.step⟩).1 := by
  unfold cast emitVoteThen
  rcases n.signing.claim ⟨n.height, n.round, voteType.step⟩ with ⟨signing, _ | _⟩
  · rfl
  · exact filed_proj (·.signing) _ _ fun _ _ => rfl

/-! ## The lock and its ground -/

/-- The lock rests on a quorum of the node's own prevotes. -/
structure LockGrounded (n : Node) : Prop where
  durable : n.signing.Durable
  round_le : ∀ lr, n.roundState.lockedRound = some lr → lr ≤ n.round
  backed : ∀ u lr, n.roundState.lockedValue = some u → n.roundState.lockedRound = some lr →
    n.quorumAt .prevote lr = some (some u)

/-- What is more, the precommit the lock was taken with is not ahead of the record. -/
structure LockBacked (n : Node) : Prop extends LockGrounded n where
  signed : n.roundState.lockedRound = some n.round →
    ∃ q, n.signing.last = some q ∧ ¬ q.Before ⟨n.height, n.round, .precommit⟩

/-- Every precommit for a block among `hist` is no later than the lock, and is the lock if it is of its round. -/
def LockCovers (hist : List Action) (n : Node) : Prop :=
  ∀ v b, .broadcastVote v ∈ hist → v.vote.voteType = .precommit → v.vote.blockId = some b →
    ∃ u lr, n.roundState.lockedValue = some u ∧ n.roundState.lockedRound = some lr ∧
      v.vote.round ≤ lr ∧ (v.vote.round = lr → u = b)

omit [Crypto] in
theorem LockBacked.not_past (h : n.LockBacked) (hr : n.roundState.lockedRound = some n.round)
    (step : Step) : ¬ n.signing.Past ⟨n.height, n.round, step⟩ := by
  intro hpast
  obtain ⟨q, hq, hnot⟩ := h.signed hr
  have hrank : step.rank ≤ Step.precommit.rank := by cases step <;> decide
  apply hnot
  rcases hpast q hq with hlt | ⟨heq, hlt | ⟨heq', hlt⟩⟩
  · exact .inl hlt
  · exact .inr ⟨heq, .inl hlt⟩
  · exact .inr ⟨heq, .inr ⟨heq', hlt.trans_le hrank⟩⟩

theorem LockBacked.cast_prevote (h : n.LockBacked) (blockId : Option Hash32) :
    (n.cast .prevote blockId).1.LockBacked := by
  have hdurable : (n.cast .prevote blockId).1.signing.Durable := by
    rw [cast_signing]
    exact (h.durable.claim _).1
  rcases cast_cases n .prevote blockId with ⟨signing, refused, hlast, hcast⟩ | ⟨signing, hpast, -, hcast⟩
  · rw [hcast] at hdurable ⊢
    refine ⟨⟨hdurable, h.round_le, h.backed⟩, fun hr => ?_⟩
    obtain ⟨q, hq, hnot⟩ := h.signed hr
    exact ⟨q, hlast.trans hq, hnot⟩
  · rw [hcast] at hdurable ⊢
    have hstate : (filed { n with signing } (n.ownVote .prevote blockId)).roundState = n.roundState :=
      filed_proj (·.roundState) _ _ fun _ _ => rfl
    -- the record let a prevote through, so the lock is of an earlier round than the vote
    have hne : n.roundState.lockedRound ≠ some n.round := fun hr => h.not_past hr .prevote hpast
    refine ⟨⟨hdurable, ?_, ?_⟩, fun hr => ?_⟩
    · simpa only [round, hstate] using h.round_le
    · intro u lr hu hlr
      rw [hstate] at hu hlr
      rw [filed_quorumAt_of_ne fun _ hround => hne (hlr.trans (congrArg some hround.symm))]
      exact h.backed u lr hu hlr
    · rw [round, hstate] at hr
      exact absurd hr hne

theorem LockGrounded.cast_precommit (h : n.LockGrounded) (blockId : Option Hash32) :
    (n.cast .precommit blockId).1.LockBacked := by
  have hstate : (n.cast .precommit blockId).1.roundState = n.roundState :=
    cast_proj (·.roundState) n _ _ fun _ _ _ _ _ => rfl
  have hheight : (n.cast .precommit blockId).1.height = n.height := cast_proj (·.height) n _ _ fun _ _ _ _ _ => rfl
  have hround : (n.cast .precommit blockId).1.round = n.round := cast_proj (·.round) n _ _ fun _ _ _ _ _ => rfl
  obtain ⟨hdurable, q, hq, hnot⟩ := h.durable.claim ⟨n.height, n.round, .precommit⟩
  have hquorum : ∀ lr, (n.cast .precommit blockId).1.quorumAt .prevote lr = n.quorumAt .prevote lr := by
    intro lr
    rcases cast_cases n .precommit blockId with ⟨signing, refused, -, hcast⟩ | ⟨signing, -, -, hcast⟩
    · rw [hcast]
      rfl
    · rw [hcast]
      exact filed_quorumAt_of_ne nofun
  refine ⟨⟨?_, ?_, ?_⟩, fun _ => ?_⟩
  · rw [cast_signing]
    exact hdurable
  · simpa only [round, hstate] using h.round_le
  · intro u lr hu hlr
    rw [hstate] at hu hlr
    rw [hquorum]
    exact h.backed u lr hu hlr
  · rw [cast_signing, hround, hheight]
    exact ⟨q, hq, hnot⟩

/-! ## Keeping it -/

variable [StateRoot]

/-- Nothing takes away the ground of the lock while `i` is handled. -/
structure LockRespected (n : Node) (i : Input) : Prop where
  /-- a proposal that claims to release the lock has a quorum among the node's own prevotes -/
  justified : ∀ signed p u lr, n.offer i = some signed → n.acceptsProposal signed.proposal = true →
    n.validateBlock signed.proposal.block = true → signed.proposal.validRound = some p →
    n.roundState.lockedValue = some u → n.roundState.lockedRound = some lr → u ≠ signed.proposal.blockId → lr < p →
    p < n.round ∧ n.quorumAt .prevote p = some (some signed.proposal.blockId)
  /-- nil gets no quorum in the round of a locked node -/
  no_nil : n.roundState.isLocked = true → ∀ signed, n.Files i signed →
    (n.fileVote signed).1.quorumAt .prevote n.round ≠ some none
  /-- the vote that arrives withdraws none of the lock's -/
  kept : ∀ signed u lr, i = .event (.vote signed) → n.roundState.lockedValue = some u →
    n.roundState.lockedRound = some lr → n.quorumAt .prevote lr = some (some u) →
    (n.fileVote signed).1.quorumAt .prevote lr = some (some u)

theorem LockRespected.of_unlocked (h : n.roundState.lockedValue = none) (i : Input) : n.LockRespected i := by
  constructor
  · intro signed p u lr _ _ _ _ hu
    rw [h] at hu
    cases hu
  · intro hlocked
    rw [RoundState.isLocked, h] at hlocked
    cases hlocked
  · intro signed u lr _ hu
    rw [h] at hu
    cases hu

theorem LockRespected.of_roundEnd (n : Node) : n.LockRespected (.event (.timeout .precommit)) := by
  constructor
  · intro signed p u lr hoffer
    cases hoffer
  · rintro - signed (hvote | ⟨value, ⟨htimeout, -⟩ | ⟨_, hoffer, -⟩, -⟩)
    · cases hvote
    · cases htimeout
    · cases hoffer
  · intro signed u lr hvote
    cases hvote

theorem LockRespected.of_vote (hnil : (n.fileVote signed).1.quorumAt .prevote n.round ≠ some none)
    (hround : n.roundState.lockedRound ≠ some signed.vote.round) : n.LockRespected (.event (.vote signed)) := by
  constructor
  · intro other p u lr hoffer
    cases hoffer
  · rintro - other (hvote | ⟨value, ⟨htimeout, -⟩ | ⟨_, hoffer, -⟩, -⟩)
    · cases hvote
      exact hnil
    · cases htimeout
    · cases hoffer
  · intro other u lr hvote hu hlr hq
    cases hvote
    rw [fileVote_quorumAt_of_ne fun _ heq => hround (hlr.trans (congrArg some heq.symm))]
    exact hq

theorem LockRespected.of_proposal {signed : SignedProposal} {value : Option Hash32}
    (hlocked : n.roundState.lockedValue = some signed.proposal.blockId)
    (hvalue : n.roundState.decidePrevote (some signed.proposal.blockId) signed.proposal.validRound
      (n.validateBlock signed.proposal.block) = .prevote value)
    (hnil : (n.fileVote (n.ownVote .prevote value)).1.quorumAt .prevote n.round ≠ some none) :
    n.LockRespected (.event (.proposal signed)) := by
  constructor
  · intro other p u lr hoffer _ _ _ hu _ hne
    cases hoffer
    exact absurd (Option.some.inj (hu.symm.trans hlocked)) hne
  · rintro - vote (hvote | ⟨value', ⟨htimeout, -⟩ | ⟨other, hoffer, -, hvalue'⟩, rfl⟩)
    · cases hvote
    · cases htimeout
    · cases hoffer
      rw [hvalue] at hvalue'
      cases hvalue'
      exact hnil
  · intro vote u lr hvote
    cases hvote

/-- The lock has its ground and covers what has been precommitted. -/
structure LockKept (hist : List Action) (n : Node) : Prop extends LockBacked n where
  covers : n.LockCovers hist

variable {n₀ n n' : Node} {i : Input} {hist as : List Action}

omit [Crypto] [StateRoot] in
theorem LockCovers.append (h : n.LockCovers hist) (hv : n'.roundState.lockedValue = n.roundState.lockedValue)
    (hr : n'.roundState.lockedRound = n.roundState.lockedRound)
    (has : ∀ v b, .broadcastVote v ∈ as → v.vote.voteType = .precommit → v.vote.blockId ≠ some b) :
    n'.LockCovers (hist ++ as) := by
  intro v b hmem htype hblock
  rw [hv, hr]
  rcases List.mem_append.1 hmem with hmem | hmem
  · exact h v b hmem htype hblock
  · exact absurd hblock (has v b hmem htype)

omit [StateRoot] in
theorem LockKept.cast_prevote (h : n.LockKept hist) (blockId : Option Hash32) :
    (n.cast .prevote blockId).1.LockKept (hist ++ (n.cast .prevote blockId).2) := by
  have hstate : (n.cast .prevote blockId).1.roundState = n.roundState :=
    cast_proj (·.roundState) n _ _ fun _ _ _ _ _ => rfl
  refine ⟨h.toLockBacked.cast_prevote blockId, h.covers.append (by rw [hstate]) (by rw [hstate]) ?_⟩
  intro v b hmem htype
  rw [cast_broadcastVote hmem] at htype
  cases htype

omit [StateRoot] in
theorem LockKept.cast_precommitNil (h : n.LockKept hist) :
    (n.cast .precommit none).1.LockKept (hist ++ (n.cast .precommit none).2) := by
  have hstate : (n.cast .precommit none).1.roundState = n.roundState :=
    cast_proj (·.roundState) n _ _ fun _ _ _ _ _ => rfl
  refine ⟨h.toLockGrounded.cast_precommit none, h.covers.append (by rw [hstate]) (by rw [hstate]) ?_⟩
  intro v b hmem _ hblock
  rw [cast_broadcastVote hmem] at hblock
  cases hblock

theorem FiledPrevote.quorumAt_eq (h : FiledPrevote n₀ i n) :
    ∃ signed, n₀.Files i signed ∧ ∀ round, n.quorumAt .prevote round = (n₀.fileVote signed).1.quorumAt .prevote round := by
  obtain ⟨signed, hfiles, hvotes, hset, -⟩ := h
  refine ⟨signed, hfiles, fun round => ?_⟩
  have hset' : (n₀.fileVote signed).1.validators = n.validators :=
    (fileVote_proj (·.validators) n₀ signed fun _ _ => rfl).trans hset.symm
  simp only [quorumAt, voteSets, hvotes, hset']

theorem LockRespected.unlocked_of_nil (hi : n₀.LockRespected i) (hpre : FiledPrevote n₀ i n)
    (hq : n.quorumAt .prevote n.round = some none) : n.roundState.lockedValue = none := by
  obtain ⟨signed, hfiles, hquorum⟩ := hpre.quorumAt_eq
  obtain ⟨-, -, -, -, hstate, -⟩ := hpre
  by_contra hlocked
  have hlocked₀ : n₀.roundState.isLocked = true := by
    rw [hstate] at hlocked
    exact Option.isSome_iff_ne_none.2 hlocked
  have hround : n.round = n₀.round := by rw [round, hstate, round]
  rw [hround, hquorum] at hq
  exact hi.no_nil hlocked₀ signed hfiles hq

theorem LockKept.lock (h : n.LockKept hist) (hi : n₀.LockRespected i) (hpre : FiledPrevote n₀ i n)
    {quorum : Option Hash32} (hq : n.quorumAt .prevote n.round = some quorum) :
    ((n.locked quorum).cast .precommit quorum).1.LockKept (hist ++ ((n.locked quorum).cast .precommit quorum).2) := by
  have hstate : ((n.locked quorum).cast .precommit quorum).1.roundState = (n.locked quorum).roundState :=
    cast_proj (·.roundState) _ _ _ fun _ _ _ _ _ => rfl
  cases quorum with
  | none =>
    have hnone := hi.unlocked_of_nil hpre hq
    have hground : (n.locked none).LockGrounded := ⟨h.durable, by simp [Node.locked, RoundState.decidePrecommit],
      by simp [Node.locked, RoundState.decidePrecommit]⟩
    refine ⟨hground.cast_precommit none, ?_⟩
    intro v b hmem htype hblock
    rcases List.mem_append.1 hmem with hmem | hmem
    · obtain ⟨u, _, hu, -⟩ := h.covers v b hmem htype hblock
      rw [hnone] at hu
      cases hu
    · rw [cast_broadcastVote hmem] at hblock
      cases hblock
  | some value =>
    have hground : (n.locked (some value)).LockGrounded := by
      refine ⟨h.durable, ?_, ?_⟩
      · rintro lr hlr
        cases hlr
        exact le_rfl
      · rintro u lr hu hlr
        cases hu
        cases hlr
        exact hq
    refine ⟨hground.cast_precommit _, ?_⟩
    intro v b hmem htype hblock
    rw [hstate]
    refine ⟨value, n.round, rfl, rfl, ?_⟩
    rcases List.mem_append.1 hmem with hmem | hmem
    · obtain ⟨u, lr, hu, hlr, hle, hcase⟩ := h.covers v b hmem htype hblock
      refine ⟨hle.trans (h.round_le lr hlr), fun hround => ?_⟩
      -- an earlier precommit of this round rests on the quorum the node sees now
      obtain rfl : lr = n.round := (h.round_le lr hlr).antisymm (hround ▸ hle)
      have hsame := (h.backed u n.round hu hlr).symm.trans hq
      rw [← hcase hround]
      simpa using hsame.symm
    · have hown := cast_broadcastVote hmem
      rw [hown] at hblock ⊢
      exact ⟨le_rfl, fun _ => Option.some.inj hblock⟩

theorem LockKept.receive (h : n.LockKept hist) (hi : n.LockRespected (.event (.vote signed))) :
    (n.fileVote signed).1.LockKept hist := by
  have hstate : (n.fileVote signed).1.roundState = n.roundState := fileVote_proj (·.roundState) _ _ fun _ _ => rfl
  have hsigning : (n.fileVote signed).1.signing = n.signing := fileVote_proj (·.signing) _ _ fun _ _ => rfl
  have hheight : (n.fileVote signed).1.height = n.height := fileVote_proj (·.height) _ _ fun _ _ => rfl
  refine ⟨⟨⟨?_, ?_, ?_⟩, ?_⟩, ?_⟩
  · rw [hsigning]
    exact h.durable
  · simpa only [round, hstate] using h.round_le
  · intro u lr hu hlr
    rw [hstate] at hu hlr
    exact hi.kept signed u lr rfl hu hlr (h.backed u lr hu hlr)
  · simpa only [round, hstate, hsigning, hheight] using h.signed
  · simpa only [LockCovers, hstate] using h.covers

theorem LockKept.propose (h : n.LockKept hist) {signing : SignRecord} {time : Timestamp}
    (hc : n.signing.claim ⟨n.height, n.round, .propose⟩ = (signing, .ok ())) :
    ({ n with signing } : Node).LockKept (hist ++ [.broadcastProposal (n.ownProposal time)]) := by
  have hpast : n.signing.Past ⟨n.height, n.round, .propose⟩ := by
    rcases n.signing.claim_cases ⟨n.height, n.round, .propose⟩ with ⟨_, -, hpast, -⟩ | ⟨_, _, herr, -⟩
    · exact hpast
    · rw [hc] at herr
      cases herr
  have hdurable := (h.durable.claim ⟨n.height, n.round, .propose⟩).1
  rw [hc] at hdurable
  refine ⟨⟨⟨hdurable, h.round_le, h.backed⟩, fun hr => absurd hpast (h.not_past hr .propose)⟩, ?_⟩
  exact h.covers.append rfl rfl fun v b hmem => by simp at hmem

omit [Crypto] [StateRoot] in
theorem LockKept.nextRound (h : n.LockKept hist) :
    ({ n with roundState := n.roundState.advanceTo n.round.next } : Node).LockKept
      (hist ++ [.startRound n.round.next]) := by
  have hle : n.round ≤ n.round.next := Fin.le_saturatingAdd n.round 1
  refine ⟨⟨⟨h.durable, fun lr hlr => (h.round_le lr hlr).trans hle, h.backed⟩, fun hr => ?_⟩, ?_⟩
  · -- only the last round is followed by itself
    have hsame : n.round.next = n.round := (h.round_le _ hr).antisymm hle
    have hr' : n.roundState.lockedRound = some n.round := hr.trans (congrArg some hsame)
    obtain ⟨q, hq, hnot⟩ := h.signed hr'
    refine ⟨q, hq, ?_⟩
    show ¬ q.Before ⟨n.height, n.round.next, .precommit⟩
    rwa [hsame]
  · exact h.covers.append rfl rfl fun v b hmem => by simp at hmem

def InOneHeight (hist : List Action) : Prop := ∀ a ∈ hist, a.isCommitted = false

omit [Crypto] [StateRoot] in
theorem InOneHeight.of_append (h : InOneHeight (hist ++ as)) : InOneHeight hist ∧ InOneHeight as :=
  ⟨fun a hmem => h a (List.mem_append_left _ hmem), fun a hmem => h a (List.mem_append_right _ hmem)⟩

theorem Move.lockKept (hm : Move n₀ i n as n') (hi : n₀.LockRespected i) (h : n.LockKept hist)
    (hheight : InOneHeight as) : n'.LockKept (hist ++ as) := by
  cases hm with
  | quiet hcore hl hd has =>
    obtain ⟨_, _, _, _, _, _, rfl⟩ := hcore
    refine ⟨⟨⟨hd h.durable, h.round_le, h.backed⟩, ?_⟩, h.covers.append rfl rfl ?_⟩
    · intro hr
      obtain ⟨q, hq, hnot⟩ := h.signed hr
      exact ⟨q, hl.trans hq, hnot⟩
    · intro v b hmem
      cases has _ hmem
  | @prevote _ signed =>
    have hadopted : (n.adopt signed).LockKept hist :=
      ⟨⟨⟨h.durable, h.round_le, h.backed⟩, h.signed⟩, h.covers⟩
    exact hadopted.cast_prevote _
  | prevoteNil =>
    have hstepped : (n.atStep .prevote).LockKept hist :=
      ⟨⟨⟨h.durable, h.round_le, h.backed⟩, h.signed⟩, h.covers⟩
    exact hstepped.cast_prevote none
  | precommitNil =>
    have hstepped : (n.atStep .precommit).LockKept hist :=
      ⟨⟨⟨h.durable, h.round_le, h.backed⟩, h.signed⟩, h.covers⟩
    exact hstepped.cast_precommitNil
  | receive hvote =>
    subst hvote
    rw [List.append_nil]
    exact h.receive hi
  | lock hpre _ hq => exact h.lock hi hpre hq
  | propose _ hc => exact h.propose hc
  | nextRound => exact h.nextRound
  | commit => cases hheight _ (List.mem_singleton_self _)
  | sync => cases hheight _ (List.mem_singleton_self _)

theorem step_lockKept (hi : n.LockRespected i) (h : InOneHeight hist → n.LockKept hist) :
    InOneHeight (hist ++ (n.step i).2) → (n.step i).1.LockKept (hist ++ (n.step i).2) := by
  refine (step_moves n i).invariant (I := fun hist m => InOneHeight hist → m.LockKept hist) ?_ h
  intro hist m as m' hkept hmove hheight
  exact hmove.lockKept hi (hkept hheight.of_append.1) hheight.of_append.2

theorem run_lockKept (hrun : Trace (StepsWhen LockRespected) n₀ hist n) (hheight : InOneHeight hist)
    (hdurable : n₀.signing.Durable) (hlock : n₀.roundState.lockedRound = none) : n.LockKept hist := by
  have hstart : n₀.LockKept [] :=
    ⟨⟨⟨hdurable, by simp [hlock], by simp [hlock]⟩, by simp [hlock]⟩, by simp [LockCovers]⟩
  refine hrun.invariant_nil (I := fun hist m => InOneHeight hist → m.LockKept hist) ?_ (fun _ => hstart) hheight
  rintro hist m as m' hkept ⟨i, hi, hstep⟩
  have hnext := step_lockKept hi hkept
  rwa [hstep] at hnext

end Node

end AfroLink
