import AfroLink.Executor.Lemmas.Docket
import AfroLink.Executor.Theorems.Names

/-!
# Who decides, and when

No two countries reach the threshold of the council, whatever council and parameters are voted in.
-/

namespace AfroLink

open Exec

/-- An action that seats a council leaves every country's opponents able to reach its threshold. -/
def Exec.SeatsRoom (s : Store) : StoreEvent → Prop
  | .message _ _ (.executeGovAction id) =>
    ∀ p c, s.proposalAt id = some p → p.action = .setCouncil c → c.LeavesRoom
  | _ => True

theorem RulesStep.leavesRoom {s s' : Store} {es : List StoreEvent} (h : RulesStep s s' es)
    (hes : ∀ ev ∈ es, SeatsRoom s ev) (hs : ∀ c, s.seatedCouncil = some c → c.LeavesRoom) :
    ∀ c, s'.seatedCouncil = some c → c.LeavesRoom := by
  intro c hc
  cases h with
  | same _ hseated => exact hs c (hseated.symm.trans hc)
  | params _ _ hseated => exact hs c (hseated.symm.trans hc)
  | council hp haction _ _ hseated =>
    cases hseated.symm.trans hc
    exact hes _ (.head _) _ _ hp haction

/-- Two countries never decide. One country can be kept from blocking exactly as long as every council that is seated
leaves room above the share of each country. -/
theorem no_jurisdiction_captures [Crypto] [StateRoot] (g : Genesis) (block : Block) (start : Store)
    (hgenesis : Runs (g.apply {}) .empty block start) (es later : List StoreEvent) (s s' : Store)
    (hs : Trace Emits start es s) (hs' : Trace Emits s later s') :
    s.chainParams.validate = .ok () ∧
    s'.chainParams.maxCouncilCountryShareBps ≤ s.chainParams.maxCouncilCountryShareBps ∧
    ∃ c, s.seatedCouncil = some c ∧
      (∀ country share, c.heaviestCountry = some (country, share) → share ≤ s.chainParams.maxCouncilCountryShareBps.val) ∧
      (∀ coalition : List Seat, coalition.Sublist c.seats → ∀ x y, (∀ seat ∈ coalition, seat.country = x ∨ seat.country = y) →
        c.reached (Governance.tally c (coalition.map (·.holder))) = false) ∧
      ((∀ country, c.reached (Governance.tally c ((c.others country).map (·.holder))) = true) ↔ c.LeavesRoom) ∧
      (g.council.LeavesRoom → Trace (fun s es s' => Emits s es s' ∧ ∀ ev ∈ es, SeatsRoom s ev) start es s →
        ∀ country, c.reached (Governance.tally c ((c.others country).map (·.holder))) = true) := by
  obtain ⟨hparams, hseated, hstart, hlimit⟩ := Genesis.install_rules (Genesis.install_of_apply hgenesis)
  have hgoverned : s.WellGoverned :=
    hs.preserves (I := Store.WellGoverned) (fun _ _ _ hs hstep => hstep.rulesStep.wellGoverned hs) hstart
  have hcap : s.chainParams.maxCouncilCountryShareBps ≤ MAX_COUNCIL_COUNTRY_SHARE_BPS := by
    refine (Trace.cap_le hs).trans ?_
    rw [hparams]
    exact hlimit
  obtain ⟨c, hc, hcheck⟩ := hgoverned.seated
  refine ⟨hgoverned.valid, Trace.cap_le hs', c, hc, ?_, ?_, Council.leavesRoom_iff.symm, ?_⟩
  · intro country share hheaviest
    unfold Council.checkConcentration at hcheck
    rw [hheaviest] at hcheck
    simp only at hcheck
    split_ifs at hcheck with hover
    exact not_lt.1 hover
  · exact fun coalition hsub x y htwo => Council.not_reached_of_two hcheck hcap hsub htwo
  · intro hroom htrace
    refine Council.leavesRoom_iff.1 (htrace.preserves (I := fun s => ∀ c, s.seatedCouncil = some c → c.LeavesRoom)
      (fun _ _ _ hs hstep => hstep.1.rulesStep.leavesRoom hstep.2 hs) ?_ c hc)
    intro c' hc'
    cases hseated.symm.trans hc'
    exact hroom

namespace Sample

def country (n : Fin 26) : CountryCode := ⟨(97, ⟨97 + n.val, by omega⟩), by simp; omega⟩

/-- Fifteen validators of equal power, each from a country of its own. -/
def continental : ValidatorSet where
  validators := ((List.finRange 15).map fun n =>
    Validator.new (key n.val).publicKey 1 (country (Fin.castLE (show 15 ≤ 26 by decide) n))).insertionSort
      fun a b => a.address ≤ b.address
  totalPower := 15
  nonempty := by decide +kernel
  positive := by decide +kernel
  sorted := by decide +kernel
  total := by decide +kernel

def seats : List Seat := [⟨1, 1, country 0⟩, ⟨2, 1, country 1⟩, ⟨3, 1, country 2⟩, ⟨4, 1, country 3⟩]

def mainnet (thresholdBps : U32) (h : Council.violation seats thresholdBps = none) : Genesis :=
  { genesisOf members with
    validators := continental
    council := ⟨seats, thresholdBps, h⟩
    params := {} }

def unanimous : Genesis := mainnet 10000 (by decide)

def ratified : Genesis := mainnet 6667 (by decide)

theorem accepted (g : Genesis)
    (h : (match g.install {} .empty with | .ok _ _ => true | .error _ _ => false) = true) :
    ∃ block start, Runs (g.apply {}) .empty block start := by
  split at h
  · rename_i u s heq
    obtain ⟨block, hblock⟩ := Genesis.apply_of_install heq
    exact ⟨block, s, hblock⟩
  · cases h

/-- Where the council decides unanimously, each country blocks the other three. -/
theorem one_country_blocks : (∃ block start, Runs (unanimous.apply {}) .empty block start) ∧
    unanimous.council.reached (Governance.tally unanimous.council
      ((unanimous.council.others (country 0)).map (·.holder))) = false :=
  ⟨accepted unanimous (by decide +kernel), by decide +kernel⟩

theorem no_jurisdiction_captures_ratified : ∃ start c, (∃ block, Runs (ratified.apply {}) .empty block start) ∧
    start.seatedCouncil = some c ∧
    ∀ country, c.reached (Governance.tally c ((c.others country).map (·.holder))) = true := by
  obtain ⟨block, start, hgenesis⟩ := accepted ratified (by decide +kernel)
  obtain ⟨-, -, c, hc, -, -, -, hopen⟩ := no_jurisdiction_captures ratified block start hgenesis [] [] start start
    (.nil _) (.nil _)
  have hroom : ratified.council.LeavesRoom := by
    unfold Council.LeavesRoom
    decide +kernel
  exact ⟨start, c, ⟨block, hgenesis⟩, hc, hopen hroom (.nil _)⟩

end Sample

section

variable [Crypto] [StateRoot] {g : Genesis} {limits : GenesisLimits} {block : Block} {s s' : Store}

theorem Genesis.apply_proposals (h : Runs (g.apply limits) .empty block s) (id : U64) : s.proposalAt id = none :=
  Store.valueAt_congr (install_frame (k := .proposal id) (install_of_apply h) (fun hopening => hopening) nofun)

omit [StateRoot] in
theorem Emits.governed {es : List StoreEvent} (h : Emits s es s') (hchange : s'.governed ≠ s.governed) :
    ∃ ctx sender id p due, es = [.message ctx sender (.executeGovAction id)] ∧ s.proposalAt id = some p ∧
      p.scheduledFor = some due ∧ due ≤ ctx.height ∧ s'.governed = s.governed.enact p.action := by
  rcases h.quiet_or_message with hes | ⟨ctx, sender, m, rfl, hm⟩
  · refine (hchange (Store.governed_congr ?_ ?_ (fun _ => ?_) fun _ => congrArg _ (Store.issuerOf_congr ?_))).elim <;>
      exact h.frame hes nofun nofun
  · rcases applyMessage_governed hm with hsame | ⟨id, p, due, rfl, hp, hdue, hle, henact⟩
    · exact (hchange hsame).elim
    · exact ⟨_, _, id, p, due, rfl, hp, hdue, hle, henact⟩

end

theorem Fin.saturatingAdd_le_iff {a b c : U64} (h : Fin.saturatingAdd a b ≤ c) :
    a.val + b.val ≤ c.val ↔ a.val + b.val < 2 ^ 64 := by
  have hle : min (a.val + b.val) (2 ^ 64 - 1) ≤ c.val := h
  have hc := c.isLt
  omega

/-- What is governed changes only as the action of a stored proposal says, when it is carried out: a proposal voted
through in its voting period and in the store ever since it was opened. The timelock in force at the deciding vote has
passed exactly if its end is a height. -/
theorem governed_by_vote [Crypto] [StateRoot] (g : Genesis) (limits : GenesisLimits) (block : Block) (start : Store)
    (hgenesis : Runs (g.apply limits) .empty block start) (e : Executor) (blocks : List (BlockContext × List Transaction))
    (es : List StoreEvent) (ev : StoreEvent) (hes : es ++ [ev] <+: runEvents e blocks start) (s s' : Store)
    (hs : Trace Emits start es s) (hstep : Emits s [ev] s') (hchange : s'.governed ≠ s.governed) :
    ∃ ctx sender id p, ev = .message ctx sender (.executeGovAction id) ∧ s.proposalAt id = some p ∧
      s'.governed = s.governed.enact p.action ∧
      ∃ before since ctxₒ t₀ opening, es = before ++ .message ctxₒ p.proposer (.proposeGovAction p.action) :: since ∧
        Trace Emits start before t₀ ∧ Emits t₀ [.message ctxₒ p.proposer (.proposeGovAction p.action)] opening ∧
        p.opened = ctxₒ.height ∧ Trace (Stays id) opening since s ∧
        (∀ ctx' a, .message ctx' a (.executeGovAction id) ∉ since) ∧
        ∃ mid after t ctxᵥ voter c, since = mid ++ .message ctxᵥ voter (.voteGovAction id) :: after ∧
          Trace (Stays id) opening mid t ∧ t.seatedCouncil = some c ∧ p.votes.Nodup ∧
          (∀ v ∈ p.votes, ∃ ev ∈ mid ++ [.message ctxᵥ voter (.voteGovAction id)], ev.VotesFor id v) ∧
          c.totalWeight * c.thresholdBps.val ≤ Governance.tally c p.votes * 10000 ∧
          ctxᵥ.height ≤ p.votingEnds ∧
          ((blocks.map (·.1.height)).Pairwise (· ≤ ·) → p.opened ≤ ctxᵥ.height) ∧
          (ctxᵥ.height.val + t.chainParams.timelockBlocks.val ≤ ctx.height.val ↔
            ctxᵥ.height.val + t.chainParams.timelockBlocks.val < 2 ^ 64) := by
  obtain ⟨ctx, sender, id, p, due, hev, hp, hdue, hle, henact⟩ := hstep.governed hchange
  cases hev
  obtain ⟨before, since, ctxₒ, t₀, opening, rfl, hbefore, hopen, hopened, -, hsince, hnodup, -, hpassed⟩ :=
    Trace.docketed hs (Genesis.apply_proposals hgenesis) hp
  obtain ⟨mid, after, t, ctxᵥ, voter, c, rfl, hmid, hc, hreached, hends, rfl, hvotes⟩ := hpassed due hdue
  refine ⟨ctx, sender, id, p, rfl, hp, henact, before, _, ctxₒ, t₀, opening, rfl, hbefore, hopen, hopened,
    hsince, ?_, mid, after, t, ctxᵥ, voter, c, rfl, hmid, hc, hnodup, hvotes, of_decide_eq_true hreached, hends,
    fun hheights => ?_, Fin.saturatingAdd_le_iff hle⟩
  · intro ctx' a hmem
    obtain ⟨u, us, u', hstays, hus⟩ := hsince.exists_step_of_mem hmem
    exact hstays.not_executed hus
  · -- the proposal comes before the vote in the run
    have hpair : [.message ctxₒ p.proposer (.proposeGovAction p.action), .message ctxᵥ voter (.voteGovAction id)].Sublist
        (before ++ .message ctxₒ p.proposer (.proposeGovAction p.action) ::
          (mid ++ .message ctxᵥ voter (.voteGovAction id) :: after)) :=
      (List.Sublist.cons_cons _ ((List.singleton_sublist.2 (.head _)).trans (List.sublist_append_right mid _))).trans
        (List.sublist_append_right before _)
    have hsorted := (runEvents_heights_sorted (s := start) (e := e) hheights).sublist
      ((hpair.trans ((List.sublist_append_left _ _).trans hes.sublist)).filterMap StoreEvent.height)
    rw [hopened]
    exact List.rel_of_pairwise_cons hsorted (.head _)

namespace Sample

/-- A chain whose council is account 1, and which makes its actions wait as long as heights can count. -/
def slowCouncil : Genesis :=
  { genesisOf members with
    council := ⟨[⟨addressOf 1, 1, .UNSPECIFIED⟩], 6667, by decide⟩
    params := { maxCouncilCountryShareBps := 10000, timelockBlocks := Fin.last _ } }

def slowStart : Store :=
  match slowCouncil.install .devnet .empty with
  | .ok _ s => s
  | .error _ _ => .empty

theorem slowStart_genesis : ∃ block, Runs (slowCouncil.apply .devnet) .empty block slowStart := by
  refine Genesis.apply_of_install ?_
  have hok : (match slowCouncil.install .devnet .empty with
      | .ok _ _ => true
      | .error _ _ => false) = true := by
    decide +kernel
  unfold slowStart Runs
  split at hok
  · rename_i heq
    rw [heq]
  · cases hok

def newcomer : Attestor := ⟨.UNSPECIFIED, "telco", true⟩

/-- At height 1 account 1 proposes to license account 2, and votes it through. -/
def voting : List (BlockContext × List Transaction) :=
  [(⟨1, 5⟩, [lasting 1 0 [.proposeGovAction (.licenseAttestor (addressOf 2) newcomer), .voteGovAction 0]])]

def enacting : List (BlockContext × List Transaction) := [(⟨Fin.last _, 6⟩, [lasting 2 0 [.executeGovAction 0]])]

/-- The licence is given one block before the timelock ends. -/
theorem enacted_early : (∃ block, Runs (slowCouncil.apply .devnet) .empty block slowStart) ∧
    slowStart.chainParams.timelockBlocks.val = 2 ^ 64 - 1 ∧
    (executeBlocks ⟨chain⟩ voting slowStart).attestorAt (addressOf 2) = none ∧
    (executeBlocks ⟨chain⟩ (voting ++ enacting) slowStart).attestorAt (addressOf 2) = some newcomer ∧
    (Fin.last (2 ^ 64 - 1) : Height).val < 1 + slowStart.chainParams.timelockBlocks.val :=
  ⟨slowStart_genesis, by decide +kernel, by decide +kernel, by decide +kernel, by decide +kernel⟩

theorem governed_by_vote_licence : ∃ es s p, Trace Emits slowStart es s ∧ s.proposalAt 0 = some p ∧ p.votes.Nodup := by
  obtain ⟨block, hgenesis⟩ := slowStart_genesis
  have hevents : runEvents ⟨chain⟩ enacting (executeBlocks ⟨chain⟩ voting slowStart) =
      [.fee (addressOf 2) .native 10, .message ⟨Fin.last _, 6⟩ (addressOf 2) (.executeGovAction 0), .nonce (addressOf 2),
        .pointer (addressOf 2) ⟨(lasting 2 0 [.executeGovAction 0]).id, Fin.last _⟩] := by
    decide +kernel
  have hbefore : (executeBlocks ⟨chain⟩ voting slowStart).attestorAt (addressOf 2) = none := by decide +kernel
  have hafter : (executeBlocks ⟨chain⟩ enacting (executeBlocks ⟨chain⟩ voting slowStart)).attestorAt (addressOf 2) =
      some newcomer := by
    decide +kernel
  have hfirst := executeBlocks_trace ⟨chain⟩ voting slowStart
  have htrace := executeBlocks_trace ⟨chain⟩ enacting (executeBlocks ⟨chain⟩ voting slowStart)
  have hall := runEvents_append ⟨chain⟩ voting enacting slowStart
  rw [hevents] at htrace hall
  obtain ⟨s, hfee, htrace⟩ := htrace.of_cons Emits.single
  obtain ⟨s', hexecute, htrace⟩ := htrace.of_cons Emits.single
  obtain ⟨s₁, hnonce, htrace⟩ := htrace.of_cons Emits.single
  obtain ⟨s₂, hpointer, htrace⟩ := htrace.of_cons Emits.single
  have hlast := htrace.of_nil Emits.single
  have hchange : s'.governed ≠ s.governed := by
    intro hsame
    have hattestor : s'.attestorAt (addressOf 2) = s.attestorAt (addressOf 2) :=
      congrFun (congrArg Governed.attestor hsame) _
    have hs : s.attestorAt (addressOf 2) = none :=
      (Store.valueAt_congr (hfee.frame (k := .attestor _) rfl nofun nofun)).trans hbefore
    have hs' : s'.attestorAt (addressOf 2) = some newcomer := by
      have hquiet := (hpointer.frame (k := .attestor (addressOf 2)) rfl nofun nofun).trans
        (hnonce.frame (k := .attestor (addressOf 2)) rfl nofun nofun)
      rw [← hafter, hlast]
      exact (Store.valueAt_congr hquiet).symm
    rw [hs, hs'] at hattestor
    cases hattestor
  have hes : (runEvents ⟨chain⟩ voting slowStart ++ [.fee (addressOf 2) .native 10]) ++
      [.message ⟨Fin.last _, 6⟩ (addressOf 2) (.executeGovAction 0)] <+: runEvents ⟨chain⟩ (voting ++ enacting) slowStart := by
    rw [hall, List.append_assoc]
    exact List.prefix_append_right_inj _ |>.2 (by exact ⟨_, rfl⟩)
  have hs : Trace Emits slowStart (runEvents ⟨chain⟩ voting slowStart ++ [.fee (addressOf 2) .native 10]) s :=
    hfirst.trans (.single hfee)
  obtain ⟨ctx, sender, id, p, hev, hp, -, before, since, ctxₒ, t₀, opening, -, -, -, -, -, -, mid, after, t, ctxᵥ, voter, c, -,
    -, -, hnodup, -⟩ := governed_by_vote _ _ block _ hgenesis ⟨chain⟩ _ _ _ hes s s' hs hexecute hchange
  cases hev
  exact ⟨_, s, p, hs, hp, hnodup⟩

end Sample

end AfroLink
