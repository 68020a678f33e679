import AfroLink.Node.Lemmas.Reports
import AfroLink.Node.Theorems.Proposals

/-!
# Equivocations reported

A node that sees a validator vote twice reports it, if the vote is of its current round and the place it computes for
the report is free.
-/

open Std (TreeMap)

namespace AfroLink

namespace Node

/-- A report against `offender` is pending afterwards and was sent out. -/
def Reports (r : Node × List Action) (offender : Address) : Prop :=
  ∃ t e, t.body.messages = [.reportEquivocation e] ∧ e.validator = offender ∧ r.1.mempool.Holds t ∧
    .broadcastTransaction t ∈ r.2

def relaysTransaction : Action → Bool
  | .broadcastTransaction _ => true
  | _ => false

theorem not_reports_of_silent {r : Node × List Action} (h : r.2.any relaysTransaction = false) (offender : Address) :
    ¬ Reports r offender := by
  rintro ⟨t, e, -, -, -, hsent⟩
  exact absurd (List.any_eq_true.2 ⟨_, hsent, rfl⟩) (Bool.eq_false_iff.1 h)

variable [Crypto]

section

variable (hsign : ∀ (sk : SecretKey) (domain : Domain) (message : Bytes),
  sk.publicKey.verify domain message (sk.sign domain message) = true)

include hsign in
theorem reportOf_verifies (n : Node) (evidence : Equivocation) :
    (n.reportOf evidence).verifyStateless n.chainId n.height = .ok () := by
  refine Exec.verifyStateless_signed (b := (n.reportOf evidence).body) rfl rfl (Fin.le_saturatingAdd _ _) ?_
  simp only [Transaction.checkSignatureList, List.isChain_singleton, not_true_eq_false, if_false, List.all_cons,
    List.all_nil, Bool.and_true]
  exact if_pos (hsign n.key .txSignDoc (n.reportOf evidence).body.signDoc)

variable {evidence : Equivocation} {n : Node} {r : Node × List Action}

include hsign in
theorem submit_report_iff (hroom : n.mempool.HasRoom (n.reportOf evidence)) :
    (∃ mempool id, n.mempool.insert (n.reportOf evidence) n.chainId n.height (Exec.readOrFresh n.store n.address) none =
      .ok (mempool, id)) ↔
      n.mempool.Free (n.reportOf evidence) ∧
        (Exec.readOrFresh n.store n.address).authorises [n.key.publicKey] = true := by
  constructor
  · rintro ⟨mempool, id, h⟩
    obtain ⟨hfree, hauth, -⟩ := Mempool.insert_eq_ok h
    exact ⟨hfree, hauth⟩
  · rintro ⟨hfree, hauth⟩
    exact Mempool.insert_of_free (Fin.le_saturatingAdd _ _) hroom (reportOf_verifies hsign n evidence) rfl hfree hauth

omit [Crypto] in
theorem Continues.not_reports {t : Transaction} {m : Node} (h : Continues t m r)
    {offender : Address} (hmem : offender ∈ m.reported) : ¬ Reports r offender := by
  rintro ⟨u, e, hmessages, rfl, -, hsent⟩
  obtain ⟨e', hmessages', hnew⟩ := h.relays u hsent
  cases hmessages.symm.trans hmessages'
  exact hnew hmem

theorem height_next_le_reportOf (n : Node) (evidence : Equivocation) :
    n.height.next ≤ (n.reportOf evidence).body.validUntil := by
  have hone : (1 : U64).val = 1 := rfl
  have hblocks : EVIDENCE_VALIDITY_BLOCKS.val = 10000 := rfl
  simp only [reportOf, TxBody.sign, Height.next, Fin.le_def, Fin.saturatingAdd_val, hone, hblocks]
  omega

include hsign in
theorem followUp_reports_iff {check : Node → Node × List Action} (hcheck : ∀ t m, Continues t m (check m))
     (hnew : evidence.validator ∉ n.reported)
    (hroom : n.mempool.HasRoom (n.reportOf evidence)) (hclear : n.Unnamed (n.reportOf evidence)) (round : Round) :
    Reports (n.followUp check round (some (.equivocated evidence))) evidence.validator ↔
      round = n.round ∧ n.mempool.Free (n.reportOf evidence) ∧
        (Exec.readOrFresh n.store n.address).authorises [n.key.publicKey] = true := by
  have hmem : evidence.validator ∈ insert evidence.validator n.reported := Finset.mem_insert_self _ _
  rw [← submit_report_iff hsign hroom]
  have hpayer : (n.reportOf evidence).body.fee.payer = none := rfl
  have hsender : (n.reportOf evidence).body.sender = n.address := rfl
  simp only [followUp, reportEquivocation_of_new hnew, submitAndRelay, submit, hpayer, hsender, Option.map_none]
  cases hresult : n.mempool.insert (n.reportOf evidence) n.chainId n.height (Exec.readOrFresh n.store n.address) none with
  | error e =>
    simp only [reduceCtorEq, exists_false, and_false, iff_false]
    split
    · rintro ⟨u, e, -, -, -, hsent⟩
      cases hsent
    · exact Continues.not_reports (hcheck (n.reportOf evidence) _) hmem
  | ok r =>
    obtain ⟨mempool, id⟩ := r
    simp only [Except.ok.injEq, Prod.mk.injEq, exists_and_left, exists_eq', and_true]
    split
    · rename_i hround
      refine ⟨?_, fun heq => absurd heq hround⟩
      rintro ⟨u, e, -, -, -, hsent⟩
      cases hsent
    · rename_i hround
      refine ⟨fun _ => not_not.1 hround, fun _ => ?_⟩
      refine ⟨n.reportOf evidence, evidence, rfl, rfl, ?_, List.mem_append_left _ (List.mem_singleton_self _)⟩
      exact (hcheck (n.reportOf evidence) _).holds (Mempool.insert_holds hresult) hclear
        (height_next_le_reportOf n evidence)

omit [Crypto] in
theorem reports_cons {a : Action} {offender : Address}
    (ha : ∀ t, a ≠ .broadcastTransaction t) : Reports (r.1, a :: r.2) offender ↔ Reports r offender := by
  simp only [Reports, List.mem_cons, (ha _).symm, false_or]

theorem fileVote_signing (n : Node) (signing : SignRecord) (signed : SignedVote) :
    (fileVote { n with signing } signed).2 = (n.fileVote signed).2 := by
  have hset : voteSetAt { n with signing } signed.vote.voteType signed.vote.round =
      n.voteSetAt signed.vote.voteType signed.vote.round := by
    cases signed.vote.voteType <;> rfl
  simp only [fileVote, hset]
  cases (n.voteSetAt signed.vote.voteType signed.vote.round).add n.validators signed with
  | error e => rfl
  | ok r => rfl

variable [StateRoot]

include hsign in
theorem onVote_reports_iff {signed : SignedVote} (hopen : n.decided = false) (hheight : signed.vote.height = n.height)
    (hadd : (n.fileVote signed).2 = some (.equivocated evidence))
    (hnew : evidence.validator ∉ n.reported) (hroom : n.mempool.HasRoom (n.reportOf evidence))
    (hclear : n.Unnamed (n.reportOf evidence)) : Reports (n.onVote signed) evidence.validator ↔
      signed.vote.round = n.round ∧ n.mempool.Free (n.reportOf evidence) ∧
        (Exec.readOrFresh n.store n.address).authorises [n.key.publicKey] = true := by
  have hfiled : n.fileVote signed = ((n.fileVote signed).1, some (.equivocated evidence)) := Prod.ext rfl hadd
  have hreport : (n.fileVote signed).1.reportOf evidence = n.reportOf evidence :=
    fileVote_proj (·.reportOf evidence) n signed fun _ _ => rfl
  have hmempool : (n.fileVote signed).1.mempool = n.mempool := fileVote_proj (·.mempool) n signed fun _ _ => rfl
  have hround : (n.fileVote signed).1.round = n.round := fileVote_proj (·.round) n signed fun _ _ => rfl
  have hreported : (n.fileVote signed).1.reported = n.reported := fileVote_proj (·.reported) n signed fun _ _ => rfl
  have haccount : (Exec.readOrFresh (n.fileVote signed).1.store (n.fileVote signed).1.address).authorises
      [(n.fileVote signed).1.key.publicKey] =
      (Exec.readOrFresh n.store n.address).authorises [n.key.publicKey] :=
    fileVote_proj (fun m => (Exec.readOrFresh m.store m.address).authorises [m.key.publicKey]) n signed fun _ _ => rfl
  have hunnamed : (n.fileVote signed).1.Unnamed (n.reportOf evidence) := by
    rw [Unnamed, fileVote_proj (·.proposals) n signed fun _ _ => rfl]
    exact hclear
  have hiff : ∀ check : Node → Node × List Action, (∀ t m, Continues t m (check m)) →
      (Reports (onVoteThen check n signed) evidence.validator ↔
        signed.vote.round = n.round ∧ n.mempool.Free (n.reportOf evidence) ∧
          (Exec.readOrFresh n.store n.address).authorises [n.key.publicKey] = true) := by
    intro check hcheck
    have hfollow : onVoteThen check n signed =
        (n.fileVote signed).1.followUp check signed.vote.round (some (.equivocated evidence)) := by
      rw [onVoteThen, if_neg (by simp [hopen, hheight]), hfiled]
    rw [hfollow, followUp_reports_iff hsign hcheck (by rw [hreported]; exact hnew)
      (by rw [hreport, hmempool]; exact hroom) (by rw [hreport]; exact hunnamed), hround, hmempool, hreport, haccount]
  unfold onVote
  split
  · exact hiff _ fun t m => checkPrevoteQuorum_continues t m
  · exact hiff _ fun t m => checkPrecommitQuorum_continues t m

end

end Node

theorem equivocation_reported_iff [Crypto] [StateRoot]
    (hsign : ∀ (sk : SecretKey) (domain : Domain) (message : Bytes),
      sk.publicKey.verify domain message (sk.sign domain message) = true)
    (n : Node) (signed : SignedVote) (evidence : Equivocation) (hopen : n.decided = false)
    (hheight : signed.vote.height = n.height) (hadd : (n.fileVote signed).2 = some (.equivocated evidence))
    (hnew : evidence.validator ∉ n.reported) (hroom : n.mempool.HasRoom (n.reportOf evidence))
    (hclear : n.Unnamed (n.reportOf evidence)) :
    (Node.Reports (n.handle (.vote signed)) evidence.validator ↔
      signed.vote.round = n.round ∧ n.mempool.Free (n.reportOf evidence) ∧
        (Exec.readOrFresh n.store n.address).authorises [n.key.publicKey] = true) ∧
    ∀ voteType blockId signing, n.signing.claim ⟨n.height, n.round, voteType.step⟩ = (signing, .ok ()) →
      signed = n.ownVote voteType blockId →
      (Node.Reports (n.emitVote voteType blockId) evidence.validator ↔
        n.mempool.Free (n.reportOf evidence) ∧
          (Exec.readOrFresh n.store n.address).authorises [n.key.publicKey] = true) := by
  refine ⟨Node.onVote_reports_iff hsign hopen hheight hadd hnew hroom hclear, ?_⟩
  rintro voteType blockId signing hclaim rfl
  have hemit : n.emitVote voteType blockId =
      ((Node.onVote { n with signing } (n.ownVote voteType blockId)).1,
        .broadcastVote (n.ownVote voteType blockId) :: (Node.onVote { n with signing } (n.ownVote voteType blockId)).2) := by
    rw [Node.emitVote, Node.emitVoteThen, hclaim]
  have hiff := Node.onVote_reports_iff hsign (n := { n with signing }) hopen hheight
    (Node.fileVote_signing n signing _ ▸ hadd) hnew hroom hclear
  rw [hemit, Node.reports_cons (by simp), hiff]
  exact and_iff_right rfl

namespace Sample

/-- Validator 2 prevotes another block in the same round. -/
def conflicting (round : Round) : SignedVote := prevoteOf 2 round other

def evidenceOf (round : Round) : Equivocation :=
  { validator := addressOf 2, first := prevoteOf 2 round lightBlock, second := conflicting round }

def watching (round : Round) : Node := (light.handle (.vote (prevoteOf 2 round lightBlock))).1

theorem equivocation_reported_now : Node.Reports ((watching 0).handle (.vote (conflicting 0))) (addressOf 2) := by
  obtain ⟨hopen, hheight, hadd, hnew, ⟨hcount, hsender, hsize, hbytes⟩, hclear, hround, hfree, hauth⟩ :
      (watching 0).decided = false ∧ (conflicting 0).vote.height = (watching 0).height ∧
      ((watching 0).fileVote (conflicting 0)).2 = some (.equivocated (evidenceOf 0)) ∧
      (evidenceOf 0).validator ∉ (watching 0).reported ∧
      ((watching 0).mempool.byKey.size < (watching 0).mempool.limits.maxTransactions ∧
        (watching 0).mempool.perSender.getD ((watching 0).reportOf (evidenceOf 0)).body.sender 0 <
          (watching 0).mempool.limits.maxPerSender ∧
        (encode ((watching 0).reportOf (evidenceOf 0))).length ≤ MAX_BLOCK_BYTES ∧
        (watching 0).mempool.bytes + (encode ((watching 0).reportOf (evidenceOf 0))).length ≤
          (watching 0).mempool.limits.maxBytes) ∧
      (∀ p ∈ (watching 0).proposals.values, ((watching 0).reportOf (evidenceOf 0)).key ∉
        p.proposal.block.transactions.map Transaction.key) ∧
      (conflicting 0).vote.round = (watching 0).round ∧
      (watching 0).mempool.Free ((watching 0).reportOf (evidenceOf 0)) ∧
      (Exec.readOrFresh (watching 0).store (watching 0).address).authorises [(watching 0).key.publicKey] = true := by
    decide +kernel
  exact (equivocation_reported_iff sign_verifies (watching 0) (conflicting 0) (evidenceOf 0) hopen hheight hadd hnew
    ⟨hcount, hsender, hsize, hbytes⟩ hclear).1.2 ⟨hround, hfree, hauth⟩

def emptyCommit : Commit where
  height := 1
  round := 0
  blockId := lightBlock.header.id
  signatures := [Vote.sign { chainId := chain, height := 1, round := 0, voteType := .precommit
                             blockId := some lightBlock.header.id, validator := addressOf 2 } (key 2)]

def secondHeight (block : Option Block) : SignedVote :=
  Vote.sign { chainId := chain, height := 2, round := 0, voteType := .prevote, blockId := block.map (·.header.id)
              validator := addressOf 2 } (key 2)

/-- A report is pending from height 1, and the first vote of height 2 has come. -/
def burdened : Node :=
  (light.run [.event (.vote (prevoteOf 2 0 lightBlock)), .event (.vote (conflicting 0)), .sync lightBlock emptyCommit,
    .event (.vote (secondHeight (some other)))]).1

/-- A vote of another round is reported to nobody else, and a report still pending keeps the next one out. -/
theorem equivocation_unreported :
    (((watching 1).fileVote (conflicting 1)).2 = some (.equivocated (evidenceOf 1)) ∧
      addressOf 2 ∉ (watching 1).reported ∧
      ¬ Node.Reports ((watching 1).handle (.vote (conflicting 1))) (addressOf 2)) ∧
    burdened.height = 2 ∧
    (burdened.fileVote (secondHeight none)).2 = some (.equivocated
      { validator := addressOf 2, first := secondHeight (some other), second := secondHeight none }) ∧
    addressOf 2 ∉ burdened.reported ∧ (secondHeight none).vote.round = burdened.round ∧
    ¬ Node.Reports (burdened.handle (.vote (secondHeight none))) (addressOf 2) := by
  obtain ⟨⟨hadd₁, hnew₁, hsilent₁⟩, hheight, hadd₂, hnew₂, hround, hsilent₂⟩ :
      (((watching 1).fileVote (conflicting 1)).2 = some (.equivocated (evidenceOf 1)) ∧
        addressOf 2 ∉ (watching 1).reported ∧
        ((watching 1).handle (.vote (conflicting 1))).2.any Node.relaysTransaction = false) ∧
      burdened.height = 2 ∧
      (burdened.fileVote (secondHeight none)).2 = some (.equivocated
        { validator := addressOf 2, first := secondHeight (some other), second := secondHeight none }) ∧
      addressOf 2 ∉ burdened.reported ∧ (secondHeight none).vote.round = burdened.round ∧
      (burdened.handle (.vote (secondHeight none))).2.any Node.relaysTransaction = false := by
    decide +kernel
  exact ⟨⟨hadd₁, hnew₁, Node.not_reports_of_silent hsilent₁ _⟩, hheight, hadd₂, hnew₂, hround,
    Node.not_reports_of_silent hsilent₂ _⟩

end Sample

end AfroLink
