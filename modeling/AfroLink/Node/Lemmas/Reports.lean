import AfroLink.Node.Lemmas.Pool
import AfroLink.Node.Lemmas.Moves

/-!
# Reports of equivocation

What the mempool asks of a report, and what becomes of it in the rest of the call that filed it.
-/

open Std (TreeMap)

namespace AfroLink

namespace Mempool

/-- The limits of the mempool leave room for `t`. -/
structure HasRoom (m : Mempool) (t : Transaction) : Prop where
  count : m.byKey.size < m.limits.maxTransactions
  sender : m.perSender.getD t.body.sender 0 < m.limits.maxPerSender
  size : (encode t).length ≤ MAX_BLOCK_BYTES
  bytes : m.bytes + (encode t).length ≤ m.limits.maxBytes

variable [Crypto] {m m' : Mempool} {t u : Transaction} {chainId : ChainId} {height : Height} {account : Account}
  {payer : Option Account} {id : Hash32}

def Free (m : Mempool) (t : Transaction) : Prop := m.byKey.contains t.key = false ∧ m.byId.contains t.id = false

instance (m : Mempool) (t : Transaction) : Decidable (m.Free t) := inferInstanceAs (Decidable (_ ∧ _))

theorem insert_eq_ok (h : m.insert t chainId height account payer = .ok (m', id)) :
    m.Free t ∧ account.authorises t.signingKeys = true ∧ m'.byKey = m.byKey.insert t.key t := by
  obtain ⟨hkey, -, -, -, hid, hauth, -, rfl⟩ := insert_writes h
  refine ⟨⟨?_, ?_⟩, hauth, rfl⟩
  · rw [TreeMap.contains_eq_isSome_getElem?, hkey]
    rfl
  · rw [TreeMap.contains_eq_isSome_getElem?, hid]
    rfl

theorem insert_of_free (hnonce : account.nonce ≤ t.body.nonce) (hroom : m.HasRoom t)
    (hvalid : t.verifyStateless chainId height = .ok ()) (hpayer : t.body.fee.isSponsored = false)
    (hfree : m.Free t) (hauth : account.authorises t.signingKeys = true) :
    ∃ m' id, m.insert t chainId height account payer = .ok (m', id) := by
  obtain ⟨hkey, hid⟩ := hfree
  have hkey : m.byKey.contains (t.body.sender, t.body.nonce) = false := hkey
  refine ⟨{ m with byKey := m.byKey.insert t.key t, byId := m.byId.insert t.id t.key
                   perSender := m.perSender.insert t.body.sender (m.perSender.getD t.body.sender 0 + 1)
                   bytes := m.bytes + (encode t).length }, t.id, ?_⟩
  simp only [insert, hnonce.not_gt, hkey, hroom.count.not_ge, hroom.sender.not_ge, hroom.size.not_gt,
    hroom.bytes.not_gt, hvalid, hauth, hpayer, hid]
  rfl

theorem insert_holds (h : m.insert t chainId height account payer = .ok (m', id)) : m'.Holds t := by
  obtain ⟨-, -, hbyKey⟩ := insert_eq_ok h
  rw [Holds, hbyKey, TreeMap.getElem?_insert_self]

theorem insert_keeps (h : m.insert t chainId height account payer = .ok (m', id)) (hu : m.Holds u) : m'.Holds u := by
  obtain ⟨⟨hkey, -⟩, -, hbyKey⟩ := insert_eq_ok h
  have hne : t.key ≠ u.key := by
    intro heq
    rw [heq, TreeMap.contains_eq_isSome_getElem?, hu] at hkey
    cases hkey
  rw [Holds, hbyKey, TreeMap.getElem?_insert, if_neg (by simpa using hne)]
  exact hu

end Mempool

namespace Node

/-- No block the node has a proposal of carries a transaction in the place of `t`. -/
def Unnamed (n : Node) (t : Transaction) : Prop :=
  ∀ p ∈ n.proposals.values, t.key ∉ p.proposal.block.transactions.map Transaction.key

/-- What is done after `n` keeps `t` if no held block names it, and relays nothing but reports that are new. -/
structure Continues (t : Transaction) (n : Node) (r : Node × List Action) : Prop where
  holds : n.mempool.Holds t → n.Unnamed t → n.height.next ≤ t.body.validUntil → r.1.mempool.Holds t
  relays : ∀ u, .broadcastTransaction u ∈ r.2 → ∃ e, u.body.messages = [.reportEquivocation e] ∧ e.validator ∉ n.reported

namespace Continues

variable {t : Transaction} {n m : Node} {r : Node × List Action}

theorem of_quiet (hholds : n.mempool.Holds t → r.1.mempool.Holds t)
    (hrelays : ∀ u, .broadcastTransaction u ∉ r.2) : Continues t n r :=
  ⟨fun h _ _ => hholds h, fun u hu => absurd hu (hrelays u)⟩

theorem after (hmempool : n.mempool.Holds t → m.mempool.Holds t) (hproposals : m.proposals = n.proposals)
    (hheight : m.height = n.height) (hreported : n.reported ⊆ m.reported) (h : Continues t m r) : Continues t n r := by
  refine ⟨fun ht hunnamed hvalid => h.holds (hmempool ht) ?_ (hheight ▸ hvalid), fun u hu => ?_⟩
  · rw [Unnamed, hproposals]
    exact hunnamed
  · obtain ⟨e, hmessages, hnew⟩ := h.relays u hu
    exact ⟨e, hmessages, fun hmem => hnew (hreported hmem)⟩

theorem append {as : List Action} (h : Continues t n r)
    (has : ∀ u, .broadcastTransaction u ∈ as → ∃ e, u.body.messages = [.reportEquivocation e] ∧ e.validator ∉ n.reported) :
    Continues t n (r.1, as ++ r.2) := by
  refine ⟨h.holds, fun u hu => ?_⟩
  rcases List.mem_append.1 hu with hu | hu
  · exact has u hu
  · exact h.relays u hu

theorem cons {a : Action} (h : Continues t n r) (ha : ∀ u, a ≠ .broadcastTransaction u) :
    Continues t n (r.1, a :: r.2) :=
  ⟨h.holds, fun u hu => h.relays u ((List.mem_cons.1 hu).resolve_left (ha u).symm)⟩

end Continues

variable [Crypto]

def reportOf (n : Node) (evidence : Equivocation) : Transaction :=
  TxBody.sign
    { chainId := n.chainId, sender := n.address
      nonce := (Exec.readOrFresh n.store n.address).nonce.saturatingAdd (Fin.ofNat (2 ^ 64) n.reported.card)
      validUntil := n.height.saturatingAdd EVIDENCE_VALIDITY_BLOCKS
      fee := { amount := EVIDENCE_FEE, denom := Denom.native, payer := none }
      messages := [.reportEquivocation evidence], memo := "" } n.key

theorem reportEquivocation_of_new {n : Node} {evidence : Equivocation} (h : evidence.validator ∉ n.reported) :
    n.reportEquivocation evidence =
      { n with reported := insert evidence.validator n.reported }.submitAndRelay (n.reportOf evidence) := by
  unfold reportEquivocation reportOf
  rw [if_neg h]
  simp only [Finset.card_insert_of_notMem h, Nat.add_sub_cancel]
  rfl

section

variable [StateRoot] (t : Transaction) (n : Node)

theorem commit_continues (blockId : Hash32) : Continues t n (n.commit blockId) := by
  cases hfor : n.proposalFor blockId with
  | none =>
    rw [commit_of_missing hfor]
    exact .of_quiet id (by simp)
  | some signed =>
    rw [commit_of_stored hfor]
    refine ⟨fun ht hunnamed hvalid => retired_holds_iff.2 ⟨ht, hunnamed signed ?_, hvalid⟩, by simp⟩
    exact List.mem_of_find?_eq_some hfor

theorem checkPrecommitQuorum_continues : Continues t n n.checkPrecommitQuorum := by
  unfold checkPrecommitQuorum
  split
  · unfold arm
    split
    · exact .of_quiet id (by simp)
    · exact .of_quiet id (by simp)
  · split
    · refine Continues.after ?_ ?_ ?_ ?_ (commit_continues t _ _)
      · exact id
      · rfl
      · rfl
      · exact subset_rfl
    · exact .of_quiet id (by simp)
    · exact .of_quiet id (by simp)

omit [StateRoot] in
theorem reportEquivocation_keeps (evidence : Equivocation) :
    (n.mempool.Holds t → (n.reportEquivocation evidence).1.mempool.Holds t) ∧
    (n.reportEquivocation evidence).1.proposals = n.proposals ∧ (n.reportEquivocation evidence).1.height = n.height ∧
    n.reported ⊆ (n.reportEquivocation evidence).1.reported ∧
    ∀ u, .broadcastTransaction u ∈ (n.reportEquivocation evidence).2 →
      ∃ e, u.body.messages = [.reportEquivocation e] ∧ e.validator ∉ n.reported := by
  by_cases hnew : evidence.validator ∈ n.reported
  · rw [reportEquivocation, if_pos hnew]
    exact ⟨id, rfl, rfl, subset_rfl, by simp⟩
  · rw [reportEquivocation_of_new hnew]
    simp only [submitAndRelay, submit]
    split
    · rename_i n' u hsubmit
      split at hsubmit
      · cases hsubmit
      · rename_i mempool id hinsert
        cases hsubmit
        refine ⟨Mempool.insert_keeps hinsert, rfl, rfl, Finset.subset_insert _ _, fun u hu => ?_⟩
        rw [List.mem_singleton] at hu
        cases hu
        exact ⟨evidence, rfl, hnew⟩
    · exact ⟨id, rfl, rfl, Finset.subset_insert _ _, by simp⟩

omit [StateRoot] in
theorem followUp_continues {check : Node → Node × List Action} (hcheck : ∀ m, Continues t m (check m)) (round : Round)
    (outcome : Option VoteOutcome) : Continues t n (n.followUp check round outcome) := by
  have hfirst : ∀ r : Node × List Action, (n.mempool.Holds t → r.1.mempool.Holds t) ∧ r.1.proposals = n.proposals ∧
      r.1.height = n.height ∧ n.reported ⊆ r.1.reported ∧ (∀ u, .broadcastTransaction u ∈ r.2 →
        ∃ e, u.body.messages = [.reportEquivocation e] ∧ e.validator ∉ n.reported) →
      Continues t n (if round ≠ r.1.round then (r.1, []) else ((check r.1).1, r.2 ++ (check r.1).2)) := by
    rintro r ⟨hmempool, hproposals, hheight, hreported, hrelays⟩
    split
    · exact .of_quiet hmempool fun u => List.not_mem_nil
    · exact ((hcheck r.1).after hmempool hproposals hheight hreported).append hrelays
  cases outcome with
  | none => exact .of_quiet id fun u => List.not_mem_nil
  | some outcome =>
    cases outcome with
    | added => exact hfirst (n, []) ⟨id, rfl, rfl, subset_rfl, by simp⟩
    | duplicate => exact hfirst (n, []) ⟨id, rfl, rfl, subset_rfl, by simp⟩
    | equivocated evidence => exact hfirst (n.reportEquivocation evidence) (reportEquivocation_keeps t n evidence)

omit [StateRoot] in
theorem onVoteThen_continues {check : Node → Node × List Action} (hcheck : ∀ m, Continues t m (check m))
    (signed : SignedVote) : Continues t n (onVoteThen check n signed) := by
  unfold onVoteThen
  split
  · exact .of_quiet id (by simp)
  · refine (followUp_continues t (n.fileVote signed).1 hcheck signed.vote.round (n.fileVote signed).2).after ?_ ?_ ?_ ?_
    · rw [fileVote_proj (·.mempool) n signed fun _ _ => rfl]
      exact id
    · exact fileVote_proj (·.proposals) n signed fun _ _ => rfl
    · exact fileVote_proj (·.height) n signed fun _ _ => rfl
    · rw [fileVote_proj (·.reported) n signed fun _ _ => rfl]

theorem checkPrevoteQuorum_continues : Continues t n n.checkPrevoteQuorum := by
  unfold checkPrevoteQuorum
  split
  · exact .of_quiet id (by simp)
  · split
    · unfold arm
      split
      · exact .of_quiet id (by simp)
      · exact .of_quiet id (by simp)
    · split
      · unfold emitVoteThen
        split
        · exact .of_quiet id (by simp)
        · refine Continues.cons ?_ fun u => nofun
          refine Continues.after ?_ ?_ ?_ ?_ (onVoteThen_continues t _ (checkPrecommitQuorum_continues t) _)
          · exact id
          · rfl
          · rfl
          · exact subset_rfl
      · exact .of_quiet id (by simp)

end

end Node

end AfroLink
