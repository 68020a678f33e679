import AfroLink.Node.Lemmas.Moves

/-!
# Signatures in order

Each move signs at most once, at a point past the record, and leaves the record there.
-/

namespace AfroLink

/-- The point of the record an action's signature was claimed at. -/
def Action.signPoint : Action → Option SignPoint
  | .broadcastVote v => some ⟨v.vote.height, v.vote.round, v.vote.voteType.step⟩
  | .broadcastProposal p => some ⟨p.proposal.height, p.proposal.round, .propose⟩
  | _ => none

theorem Action.signPoint_of_isQuiet {a : Action} (h : a.isQuiet = true) : a.signPoint = none := by
  cases a with
  | broadcastTransaction | scheduleTimeout => rfl
  | _ => cases h

/-- What happens to a signing record while `as` go out. -/
inductive Signs (r : SignRecord) (as : List Action) (r' : SignRecord) : Prop where
  | none (hp : as.filterMap Action.signPoint = []) (hl : r'.last = r.last)
  | one {p : SignPoint} (hp : as.filterMap Action.signPoint = [p]) (hpast : r.Past p) (hl : r'.last = some p)

/-- The signatures of a history are in order, and none is past the record. -/
structure SignedInOrder (hist : List Action) (r : SignRecord) : Prop where
  sorted : (hist.filterMap Action.signPoint).Pairwise SignPoint.Before
  covered : ∀ p ∈ hist.filterMap Action.signPoint, ∃ q, r.last = some q ∧ (p = q ∨ p.Before q)

theorem SignedInOrder.nil (r : SignRecord) : SignedInOrder [] r := ⟨.nil, by simp⟩

theorem SignedInOrder.append {hist as : List Action} {r r' : SignRecord} (h : SignedInOrder hist r)
    (hs : Signs r as r') : SignedInOrder (hist ++ as) r' := by
  cases hs with
  | none hp hl =>
    constructor
    · simpa [hp] using h.sorted
    · simpa [hp, hl] using h.covered
  | @one p hp hpast hl =>
    have hbefore : ∀ q ∈ hist.filterMap Action.signPoint, q.Before p := by
      intro q hq
      obtain ⟨last, hlast, rfl | hlt⟩ := h.covered q hq
      · exact hpast q hlast
      · exact hlt.trans (hpast last hlast)
    constructor
    · rw [List.filterMap_append, hp]
      refine List.pairwise_append.2 ⟨h.sorted, List.pairwise_singleton _ p, fun q hq p' hp' => ?_⟩
      rw [List.mem_singleton.1 hp']
      exact hbefore q hq
    · rw [List.filterMap_append, hp]
      intro q hq
      rcases List.mem_append.1 hq with hq | hq
      · exact ⟨p, hl, .inr (hbefore q hq)⟩
      · exact ⟨p, hl, .inl (List.mem_singleton.1 hq)⟩

theorem SignedInOrder.eq_of_signPoint {hist : List Action} {r : SignRecord} {p : SignPoint} (h : SignedInOrder hist r)
    {a b : Action} (ha : a ∈ hist) (hb : b ∈ hist) (hpa : a.signPoint = some p) (hpb : b.signPoint = some p) :
    a = b := by
  have hdistinct : hist.Pairwise fun a b => ∀ p, a.signPoint = some p → b.signPoint = some p → a = b := by
    refine (List.pairwise_filterMap.1 h.sorted).imp fun {a b} hlt p hpa hpb => ?_
    exact absurd (hlt p hpa p hpb) (SignPoint.Before.irrefl p)
  have hsymm : Std.Symm fun a b : Action => ∀ p, a.signPoint = some p → b.signPoint = some p → a = b :=
    ⟨fun a b hab p hpb hpa => (hab p hpa hpb).symm⟩
  exact hdistinct.forall_of_forall (fun _ _ _ _ _ => rfl) ha hb p hpa hpb

namespace Node

variable [Crypto]

theorem cast_signs (n : Node) (voteType : VoteType) (blockId : Option Hash32) :
    Signs n.signing (n.cast voteType blockId).2 (n.cast voteType blockId).1.signing := by
  rcases cast_cases n voteType blockId with ⟨signing, refused, hlast, h⟩ | ⟨signing, hpast, hlast, h⟩
  · rw [h]
    exact .none rfl hlast
  · rw [h]
    refine .one rfl hpast ?_
    rw [filed_proj (·.signing) _ _ fun _ _ => rfl]
    exact hlast

variable [StateRoot] {n₀ n n' : Node} {i : Input} {as : List Action}

theorem Move.signs (h : Move n₀ i n as n') : Signs n.signing as n'.signing := by
  cases h with
  | quiet hcore hl _ has =>
    refine .none ?_ hl
    exact List.filterMap_eq_nil_iff.2 fun a ha => Action.signPoint_of_isQuiet (has a ha)
  | @prevote _ signed => exact (n.adopt signed).cast_signs _ _
  | prevoteNil => exact (n.atStep .prevote).cast_signs _ _
  | precommitNil => exact (n.atStep .precommit).cast_signs _ _
  | receive =>
    refine .none rfl ?_
    rw [fileVote_proj (·.signing) _ _ fun _ _ => rfl]
  | @lock _ quorum => exact (n.locked quorum).cast_signs _ _
  | propose hi hc =>
    rcases n.signing.claim_cases ⟨n.height, n.round, .propose⟩ with ⟨signing, hok, hpast, hl⟩ | ⟨signing, e, herr, -⟩
    · rw [hc] at hok
      cases hok
      exact .one rfl hpast hl
    · rw [hc] at herr
      cases herr
  | nextRound => exact .none rfl rfl
  | commit => exact .none rfl rfl
  | sync => exact .none rfl rfl

theorem step_signedInOrder (n : Node) (i : Input) {hist : List Action} (h : SignedInOrder hist n.signing) :
    SignedInOrder (hist ++ (n.step i).2) (n.step i).1.signing :=
  (step_moves n i).invariant (I := fun hist m => SignedInOrder hist m.signing)
    (fun _ _ _ _ hist hmove => hist.append hmove.signs) h

theorem step_signs_past {a : Action} {p : SignPoint} (ha : a ∈ (n.step i).2) (hp : a.signPoint = some p) :
    n.signing.Past p := by
  let I (hist : List Action) (m : Node) : Prop :=
    (∀ p ∈ hist.filterMap Action.signPoint, n.signing.Past p) ∧ ∀ p, m.signing.Past p → n.signing.Past p
  have hstep : ∀ hist m as m', I hist m → Move n i m as m' → I (hist ++ as) m' := by
    rintro hist m as m' ⟨hsigned, hpast⟩ hmove
    cases hmove.signs with
    | none hnone hl =>
      refine ⟨by simpa [hnone] using hsigned, fun p h => hpast p ?_⟩
      unfold SignRecord.Past at *
      rwa [← hl]
    | @one q hone hq hl =>
      constructor
      · intro p hmem
        rw [List.filterMap_append, hone, List.mem_append] at hmem
        rcases hmem with hmem | hmem
        · exact hsigned p hmem
        · rw [List.mem_singleton.1 hmem]
          exact hpast q hq
      · intro p h last hlast
        exact (hpast q hq last hlast).trans (h q hl)
  have hend : I (n.step i).2 (n.step i).1 := (step_moves n i).invariant_nil hstep ⟨by simp, fun _ h => h⟩
  exact hend.1 p (List.mem_filterMap.2 ⟨a, ha, hp⟩)

end Node

end AfroLink
