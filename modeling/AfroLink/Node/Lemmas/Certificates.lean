import AfroLink.Consensus.Lemmas.Tally
import AfroLink.Node.Lemmas.VoteSets

/-!
# Certificates made of precommits

A node counts only votes it has checked, so what it makes of a quorum of them passes the check of a commit.
-/

open Std

namespace AfroLink

variable [Crypto]

theorem Commit.tally_of_backs {c : Commit} {chainId : ChainId} {vs : ValidatorSet} {l : List SignedVote}
    {seen : List Address} (power : U64) (hback : ∀ signed ∈ l, c.Backs chainId vs signed)
    (hnodup : (l.map (·.vote.validator) ++ seen).Nodup) :
    ∃ result : U64, c.tally chainId vs l seen power = .ok result ∧
      result.val = min (power.val + (l.map fun signed => (vs.powerOf signed.vote.validator).val).sum) (2 ^ 64 - 1) := by
  induction l generalizing seen power with
  | nil => exact ⟨power, rfl, by simp; omega⟩
  | cons signed rest ih =>
    obtain ⟨hheight, hround, htype, hblock, hchain, hany⟩ := hback signed (.head _)
    obtain ⟨v, hget, hverifies⟩ := (Option.any_eq_true ..).1 hany
    have hseen : signed.vote.validator ∉ seen := fun hmem =>
      (List.nodup_cons.1 hnodup).1 (List.mem_append_right _ hmem)
    have hpower : vs.powerOf signed.vote.validator = v.votingPower := by rw [ValidatorSet.powerOf, hget]
    obtain ⟨result, htally, hresult⟩ := ih (power.saturatingAdd v.votingPower)
      (fun other hother => hback other (.tail _ hother)) (List.nodup_middle.2 hnodup)
    refine ⟨result, ?_, ?_⟩
    · simp [tally, hheight, hround, htype, hblock, hchain, hseen, hget, hverifies, htally]
    · rw [hresult, Fin.saturatingAdd_val, List.map_cons, List.sum_cons, hpower]
      omega

theorem ValidatorSet.convicts {vs : ValidatorSet} {first second : SignedVote} (hs : vs.signs first = true)
    (hs' : vs.signs second = true) (hwho : first.vote.validator = second.vote.validator)
    (hheight : first.vote.height = second.vote.height) (hround : first.vote.round = second.vote.round)
    (htype : first.vote.voteType = second.vote.voteType) (hblock : first.vote.blockId ≠ second.vote.blockId) :
    provesEquivocation ⟨second.vote.validator, first, second⟩ vs = true := by
  obtain ⟨v, hget, hverifies⟩ := (Option.any_eq_true ..).1 hs
  obtain ⟨w, hget', hverifies'⟩ := (Option.any_eq_true ..).1 hs'
  obtain rfl : v = w := Option.some.inj (hget.symm.trans (hwho ▸ hget'))
  simp [provesEquivocation, hwho, hget', hheight, hround, htype, hblock, hverifies, hverifies']

/-! ## Vote sets -/

namespace VoteSet

/-- The set is what some votes make of `start`, and holds under each address a checked vote of that address. -/
structure Counts (vs : ValidatorSet) (start s : VoteSet) : Prop where
  tallies : ∃ votes, Tallies vs start votes s
  held : ∀ a signed, s.votes[a]? = some signed → s.Genuine vs signed ∧ signed.vote.validator = a

variable {vs : ValidatorSet} {start s : VoteSet} {signed : SignedVote} {chainId : ChainId} {height : Height}
  {round : Round} {blockId : Hash32}

theorem Counts.new (voteType : VoteType) :
    Counts vs (.new chainId height round voteType) (.new chainId height round voteType) :=
  ⟨⟨[], .new vs chainId height round voteType⟩, by simp [VoteSet.new]⟩

theorem Counts.deliver (h : Counts vs start s) (signed : SignedVote) : Counts vs start (s.deliver vs signed) := by
  obtain ⟨votes, htallies⟩ := h.tallies
  refine ⟨⟨_, htallies.deliver signed⟩, ?_⟩
  have hdelivers := deliver_delivers vs s signed
  generalize s.deliver vs signed = s' at hdelivers
  intro a other hother
  cases hdelivers with
  | refused | ignored | repeated => exact h.held a other hother
  | caught =>
    simp only [withdraw, TreeMap.getElem?_erase] at hother
    split at hother
    · cases hother
    · exact h.held a other hother
  | @first validator hcheck =>
    simp only [record, TreeMap.getElem?_insert, Std.compare_eq_iff_eq] at hother
    split at hother
    · rename_i heq
      cases hother
      exact ⟨⟨validator, hcheck⟩, heq⟩
    · exact h.held a other hother

theorem Counts.slot {voteType : VoteType} (h : Counts vs (.new chainId height round voteType) s)
    (hs : s.Genuine vs signed) :
    signed.vote.height = height ∧ signed.vote.round = round ∧ signed.vote.voteType = voteType ∧
      signed.vote.chainId = chainId ∧ vs.signs signed = true := by
  obtain ⟨votes, htallies⟩ := h.tallies
  obtain ⟨validator, hcheck⟩ := htallies.genuine.1 hs
  obtain ⟨hget, hverifies⟩ := checkVote_ok hcheck
  unfold checkVote at hcheck
  simp only at hcheck
  split_ifs at hcheck with hslot hchain
  simp only [not_or, not_not] at hslot hchain
  exact ⟨hslot.1, hslot.2.1, hslot.2.2, hchain, by simp [ValidatorSet.signs, hget, hverifies]⟩

theorem Counts.validators_votesFor (h : Counts vs start s) (v : Option Hash32) :
    ((s.votesFor v).map (·.vote.validator)).Nodup := by
  have hkeys : s.votes.values.map (·.vote.validator) = s.votes.toList.map Prod.fst := by
    rw [TreeMap.values_eq_map_snd, List.map_map]
    refine List.map_congr_left fun e he => ?_
    exact (h.held e.1 e.2 (TreeMap.mem_toList_iff_getElem?_eq_some.1 he)).2
  refine List.Nodup.sublist ?_ (hkeys ▸ s.votes.nodup_keys_toList)
  exact List.filter_sublist.map _

theorem Counts.power_votesFor (h : Counts vs start s) (v : Option Hash32) :
    ((s.votesFor v).map fun signed => (vs.powerOf signed.vote.validator).val).sum = (s.powerFor v).val := by
  obtain ⟨votes, htallies⟩ := h.tallies
  have hholders : s.holders vs (· == v) = ((s.votesFor v).map (·.vote.validator)).toFinset := by
    ext a
    simp only [holders, Finset.mem_filter, List.mem_toFinset, List.mem_map, votesFor, List.mem_filter,
      TreeMap.mem_values, beq_iff_eq]
    constructor
    · rintro ⟨-, hany⟩
      obtain ⟨value, hvalue, hv⟩ := (Option.any_eq_true ..).1 hany
      obtain ⟨signed, hsigned, rfl⟩ := Option.map_eq_some_iff.1 hvalue
      exact ⟨signed, ⟨⟨a, hsigned⟩, by simpa using hv⟩, (h.held a signed hsigned).2⟩
    · rintro ⟨signed, ⟨⟨b, hb⟩, hv⟩, rfl⟩
      have hvalue : s.valueOf signed.vote.validator = some v := by
        rw [(h.held b signed hb).2, valueOf, hb, Option.map_some, hv]
      exact ⟨htallies.member _ v hvalue, by simp [hvalue]⟩
  rw [htallies.power v, hholders, Electorate.weightOf, List.sum_toFinset _ (h.validators_votesFor v), List.map_map]
  rfl

omit [Crypto] in
theorem powerFor_of_quorumValue {v : Option Hash32} (h : s.quorumValue vs = some v) :
    vs.hasQuorum (s.powerFor v) = true := by
  obtain ⟨⟨w, power⟩, hfind, rfl⟩ := Option.map_eq_some_iff.1 h
  have hmem := TreeMap.mem_toList_iff_getElem?_eq_some.1 (List.mem_of_find?_eq_some hfind)
  rw [powerFor, TreeMap.getD_eq_getD_getElem?, hmem]
  exact (List.find?_some hfind :)

theorem Counts.verify (h : Counts vs (.new chainId height round .precommit) s)
    (hquorum : s.quorumValue vs = some (some blockId)) :
    (Commit.mk height round blockId (s.votesFor (some blockId))).verify chainId vs = .ok () := by
  have hpower := h.power_votesFor (some blockId)
  have hreached := powerFor_of_quorumValue hquorum
  have hthreshold := ValidatorSet.threshold_le_of_hasQuorum hreached
  have hback : ∀ signed ∈ s.votesFor (some blockId),
      Commit.Backs ⟨height, round, blockId, s.votesFor (some blockId)⟩ chainId vs signed := by
    intro signed hsigned
    obtain ⟨hvalue, hblock⟩ := List.mem_filter.1 hsigned
    obtain ⟨a, ha⟩ := TreeMap.mem_values.1 hvalue
    obtain ⟨hheight, hround, htype, hchain, hsigns⟩ := h.slot (h.held a signed ha).1
    exact ⟨hheight, hround, htype, by simpa using hblock, hchain, hsigns⟩
  have hnodup := h.validators_votesFor (some blockId)
  rw [← List.append_nil (List.map _ _)] at hnodup
  obtain ⟨result, htally, hresult⟩ := Commit.tally_of_backs 0 hback hnodup
  have heq : result = s.powerFor (some blockId) := by
    rw [Fin.ext_iff, hresult, hpower, Fin.val_zero]
    omega
  have hsome : s.votesFor (some blockId) ≠ [] := by
    intro hnil
    simp only [hnil, List.map_nil, List.sum_nil, Electorate.threshold] at hpower hthreshold
    omega
  simp [Commit.verify, hsome, htally, heq, hreached]

/-- Two votes of one signer that a set refuses to count are evidence against the signer. -/
theorem Counts.proves {voteType : VoteType} {s' : VoteSet} {evidence : Equivocation}
    (h : Counts vs (.new chainId height round voteType) s)
    (hadd : s.add vs signed = .ok (s', .equivocated evidence)) : provesEquivocation evidence vs = true := by
  unfold add at hadd
  cases hcheck : s.checkVote vs signed with
  | error e => simp [hcheck] at hadd
  | ok validator =>
    simp only [hcheck] at hadd
    split at hadd
    · cases hadd
    split at hadd
    · rename_i existing hheld
      split at hadd <;> cases hadd
      rename_i hblock
      obtain ⟨hgenuine, hwho⟩ := h.held _ existing hheld
      obtain ⟨hh, hr, ht, -, hsigns⟩ := h.slot hgenuine
      obtain ⟨hh', hr', ht', -, hsigns'⟩ := h.slot ⟨validator, hcheck⟩
      exact ValidatorSet.convicts hsigns hsigns' hwho (hh.trans hh'.symm) (hr.trans hr'.symm) (ht.trans ht'.symm) hblock
    · cases hadd

end VoteSet

/-! ## The sets of a node -/

namespace Node

/-- Each set of votes counts those of its kind and round at the node's height. -/
def CountsVotes (n : Node) : Prop :=
  ∀ voteType round, VoteSet.Counts n.validators (.new n.chainId n.height round voteType) (n.voteSetAt voteType round)

variable {n : Node} {signed : SignedVote}

theorem CountsVotes.fileVote (h : n.CountsVotes) : (n.fileVote signed).1.CountsVotes := by
  have hsame := fileVote_proj (fun m => (m.validators, m.chainId, m.height)) n signed fun _ _ => rfl
  simp only [Prod.mk.injEq] at hsame
  obtain ⟨hvalidators, hchain, hheight⟩ := hsame
  have htallied : n.tallied signed =
      (n.voteSetAt signed.vote.voteType signed.vote.round).deliver n.validators signed := by
    unfold tallied VoteSet.deliver
    cases (n.voteSetAt signed.vote.voteType signed.vote.round).add n.validators signed <;> rfl
  intro voteType round
  rw [voteSetAt, hvalidators, hchain, hheight, fileVote_fst, voteSets_withVoteSets]
  split
  · rename_i htype
    subst htype
    rw [TreeMap.getD_insert]
    split
    · obtain rfl := Std.compare_eq_iff_eq.1 ‹_›
      rw [htallied]
      exact (h _ _).deliver signed
    · exact h _ round
  · exact h voteType round

theorem CountsVotes.cast (h : n.CountsVotes) (voteType : VoteType) (blockId : Option Hash32) :
    (n.cast voteType blockId).1.CountsVotes := by
  rcases cast_cases n voteType blockId with ⟨signing, refused, -, hcast⟩ | ⟨signing, -, -, hcast⟩ <;> rw [hcast]
  · exact h
  · show (filed { n with signing } (n.ownVote voteType blockId)).CountsVotes
    unfold filed
    split
    · exact h
    · exact CountsVotes.fileVote (n := { n with signing }) h

theorem CountsVotes.certifies {blockId : Hash32} (h : n.CountsVotes)
    (hq : n.quorumAt .precommit n.round = some (some blockId)) :
    (n.certificate blockId).verify n.chainId n.validators = .ok () := by
  obtain ⟨s, hs, hquorum⟩ := Option.bind_eq_some_iff.1 hq
  have hset : n.precommits[n.round]? = some s := hs
  have hcounts := h .precommit n.round
  rw [voteSetAt, TreeMap.getD_eq_getD_getElem?, hs] at hcounts
  simp only [certificate, hset]
  exact hcounts.verify hquorum

end Node

end AfroLink
