import AfroLink.Crypto.Sample
import AfroLink.Witness.Lemmas

/-!
# Who can be convicted of equivocation

A witness keeps one log for each chain it observes, all under one key. The check names the log by the key alone, so
heads of two chains count as heads of one log.
-/

namespace AfroLink

/-! ## Roots and entries -/

theorem MerkleTree.leaves_of_tips (leaves : List Hash32) :
    ∀ fuel, leaves.length ≤ fuel → (hashTree fuel leaves).tips.filterMap id = leaves := by
  induction leaves using leaves_induction with
  | nil => intro fuel _; cases fuel <;> rfl
  | one a => intro fuel _; cases fuel <;> rfl
  | split leaves htwo ihl ihr =>
    intro fuel hfuel
    obtain ⟨hpos, hlt⟩ := splitPoint_bounds htwo
    obtain ⟨fuel, rfl⟩ : ∃ n, fuel = n + 1 := ⟨fuel - 1, by omega⟩
    have hleft := ihl fuel (by simp; omega)
    have hright := ihr fuel (by simp; omega)
    rw [hashTree_split fuel htwo, HashTree.tips, List.filterMap_append, hleft, hright, List.take_append_drop]

namespace WitnessLog

variable [Crypto] {w w' : WitnessLog}

def hashed (w : WitnessLog) : List Bytes := emptyInput :: (w.entries.map entryInput ++ w.tree.joined.map nodeInput)

theorem emptyInput_mem_hashed : emptyInput ∈ w.hashed := .head _

variable {e : LogEntry} {q : Hash32 × Hash32} {tip : Option Hash32}

theorem entryInput_mem_hashed (h : e ∈ w.entries) : entryInput e ∈ w.hashed := by
  simpa [hashed] using .inr (.inl ⟨e, h, rfl⟩)

theorem nodeInput_mem_hashed {p : Hash32 × Hash32} (h : p ∈ w.tree.joined) : nodeInput p ∈ w.hashed := by
  simpa [hashed] using .inr (.inr ⟨p.1, p.2, h, rfl⟩)

theorem exists_entry_of_tip {leaf : Hash32} (h : some leaf ∈ w.tree.tree.tips) : ∃ e ∈ w.entries, e.leaf = leaf :=
  List.mem_map.1 (MerkleTree.tips_hashTree _ _ _ h)

variable {inputs : List Bytes}

theorem leaf_ne_nodeHash (h : CollisionFree inputs)
    (he : entryInput e ∈ inputs) (hq : nodeInput q ∈ inputs) : e.leaf ≠ nodeHash q.1 q.2 := by
  intro heq
  rw [nodeHash, hashParts_pair] at heq
  cases (h.hash_inj he hq heq).1

theorem leaf_ne_emptyRoot (h : CollisionFree inputs) (he : entryInput e ∈ inputs)
    (hempty : emptyInput ∈ inputs) : e.leaf ≠ emptyRoot := by
  intro heq
  cases (h.hash_inj he hempty heq).1

theorem tipHash_ne_nodeHash (h : CollisionFree inputs) (hw : w.hashed ⊆ inputs)
    (htip : tip ∈ w.tree.tree.tips) (hq : nodeInput q ∈ inputs) : MerkleTree.tipHash tip ≠ nodeHash q.1 q.2 := by
  cases tip with
  | none => exact h.emptyRoot_ne_nodeHash (hw emptyInput_mem_hashed) hq
  | some leaf =>
    obtain ⟨e, he, rfl⟩ := exists_entry_of_tip htip
    exact leaf_ne_nodeHash h (hw (entryInput_mem_hashed he)) hq

theorem tipHash_inj (h : CollisionFree inputs) (hw : w.hashed ⊆ inputs) (hw' : w'.hashed ⊆ inputs)
    {tip' : Option Hash32} (htip : tip ∈ w.tree.tree.tips) (htip' : tip' ∈ w'.tree.tree.tips)
    (heq : MerkleTree.tipHash tip = MerkleTree.tipHash tip') : tip = tip' := by
  have hempty := hw emptyInput_mem_hashed
  cases tip with
  | none =>
    cases tip' with
    | none => rfl
    | some leaf =>
      obtain ⟨e, he, rfl⟩ := exists_entry_of_tip htip'
      exact absurd heq.symm (leaf_ne_emptyRoot h (hw' (entryInput_mem_hashed he)) hempty)
  | some leaf =>
    cases tip' with
    | none =>
      obtain ⟨e, he, rfl⟩ := exists_entry_of_tip htip
      exact absurd heq (leaf_ne_emptyRoot h (hw (entryInput_mem_hashed he)) hempty)
    | some leaf' => exact congrArg some heq

theorem entries_of_root_eq (h : CollisionFree inputs) (hw : w.hashed ⊆ inputs) (hw' : w'.hashed ⊆ inputs)
    (heq : w.root = w'.root) : w.entries = w'.entries := by
  have htrees : w.tree.tree = w'.tree.tree := by
    refine HashTree.eq_of_digest_eq ?_ (fun a ha b hb => tipHash_inj h hw hw' ha hb)
      (fun a ha q hq => tipHash_ne_nodeHash h hw ha (hw' (nodeInput_mem_hashed hq)))
      (fun b hb p hp => tipHash_ne_nodeHash h hw' hb (hw (nodeInput_mem_hashed hp))) ?_
    · exact fun p hp q hq => h.nodeHash_inj (hw (nodeInput_mem_hashed hp)) (hw' (nodeInput_mem_hashed hq))
    · rwa [← MerkleTree.root_eq_digest, ← MerkleTree.root_eq_digest]
  have hleaves : w.entries.map LogEntry.leaf = w'.entries.map LogEntry.leaf := by
    have hl := MerkleTree.leaves_of_tips (w.entries.map LogEntry.leaf) _ le_rfl
    have hr := MerkleTree.leaves_of_tips (w'.entries.map LogEntry.leaf) _ le_rfl
    exact hl.symm.trans ((congrArg (fun t => t.tips.filterMap id) htrees).trans hr)
  have hlen : w.entries.length = w'.entries.length := by simpa using congrArg List.length hleaves
  apply List.ext_getElem hlen
  intro i hi hi'
  have hleaf : w.entries[i].leaf = w'.entries[i].leaf := by
    have := List.getElem_of_eq hleaves (by simpa using hi)
    simpa using this
  exact h.leaf_inj (hw (entryInput_mem_hashed (List.getElem_mem hi))) (hw' (entryInput_mem_hashed (List.getElem_mem hi')))
    hleaf

theorem root_congr (heq : w.entries = w'.entries) : w.root = w'.root := by
  simp [root, tree, heq]

omit [Crypto] in
theorem append_eq_ok {entry : LogEntry} {index : U64} (h : w.append entry = .ok (index, w')) :
    w' = { w with entries := w.entries ++ [entry] } := by
  unfold append at h
  split at h
  · split at h
    · cases h
    · cases h; rfl
  · cases h; rfl

omit [Crypto] in
theorem append_of_later {entry : LogEntry}
    (h : ∀ last ∈ w.entries.getLast?, ¬ (entry.height ≤ last.height ∨ entry.observedAt ≤ last.observedAt)) :
    ∃ index, w.append entry = .ok (index, { w with entries := w.entries ++ [entry] }) := by
  unfold append
  cases hlast : w.entries.getLast? with
  | none => exact ⟨_, rfl⟩
  | some last => exact ⟨_, if_neg (h last (by simp [hlast]))⟩

end WitnessLog

/-! ## Runs of a witness -/

/-- A witness with one log a chain, and every head it signed, beside the log as it was. -/
structure Operator where
  logs : ChainId → WitnessLog
  signed : List (WitnessLog × SignedTreeHead)

namespace Operator

variable [Crypto]

inductive Step (key : SecretKey) : Operator → Operator → Prop
  | append {op : Operator} {chain : ChainId} {entry : LogEntry} {index : U64} {w : WitnessLog}
      (h : (op.logs chain).append entry = .ok (index, w)) :
      Step key op { op with logs := Function.update op.logs chain w }
  | signHead {op : Operator} {chain : ChainId} {signedAt : Timestamp} {sth : SignedTreeHead}
      (h : (op.logs chain).signHead key signedAt = .ok sth) :
      Step key op { op with signed := op.signed ++ [(op.logs chain, sth)] }

def start (key : SecretKey) : Operator := ⟨fun chain => .new chain (.fromPublicKey key.publicKey), []⟩

def Reachable (key : SecretKey) : Operator → Prop := Relation.ReflTransGen (Step key) (start key)

def hashed (op : Operator) : List Bytes := op.signed.flatMap fun p => p.1.hashed

variable {key : SecretKey} {op op' : Operator}

/-- A signed head is the head of its log as it was, and the log has only grown since. -/
structure Inv (key : SecretKey) (op : Operator) : Prop where
  chainId_logs : ∀ chain, (op.logs chain).chainId = chain
  signed_of : ∀ p ∈ op.signed, p.1.log = .fromPublicKey key.publicKey ∧ (∃ signedAt, p.2 = (p.1.head signedAt).sign key) ∧
    p.1.entries <+: (op.logs p.1.chainId).entries

theorem Inv.step (h : Inv key op) (hstep : Step key op op') : Inv key op' := by
  cases hstep with
  | @append chain entry index w happend =>
    have hw := WitnessLog.append_eq_ok happend
    constructor
    · intro c
      by_cases hc : c = chain
      · simp [hc, hw, h.chainId_logs]
      · simp [hc, h.chainId_logs]
    · intro p hp
      obtain ⟨hlog, hhead, hprefix⟩ := h.signed_of p hp
      refine ⟨hlog, hhead, ?_⟩
      by_cases hc : p.1.chainId = chain
      · simp only [hc, Function.update_self, hw]
        rw [hc] at hprefix
        exact hprefix.trans (List.prefix_append _ _)
      · simpa [hc] using hprefix
  | @signHead chain signedAt sth hsign =>
    refine ⟨h.chainId_logs, fun p hp => ?_⟩
    rcases List.mem_append.1 hp with hp | hp
    · exact h.signed_of p hp
    · obtain rfl := List.mem_singleton.1 hp
      unfold WitnessLog.signHead at hsign
      split at hsign
      · cases hsign
      · rename_i hlog
        cases hsign
        rw [not_not] at hlog
        exact ⟨hlog.symm, ⟨signedAt, rfl⟩, by simp [h.chainId_logs]⟩

theorem Reachable.inv (h : Reachable key op) : Inv key op := by
  induction h with
  | refl => exact ⟨fun _ => rfl, by simp [start]⟩
  | tail _ hstep ih => exact ih.step hstep

end Operator

theorem asU64_inj {m n : Nat} (hm : m < 2 ^ 64 - 1) (h : asU64 m = asU64 n) : m = n := by
  unfold asU64 at h
  rw [dif_pos (show m < 2 ^ 64 by omega)] at h
  split at h
  · exact congrArg Fin.val h
  · have hval : m = 2 ^ 64 - 1 := congrArg Fin.val h
    omega

section

variable [Crypto] {key : SecretKey} {w w' : WitnessLog} {t t' : Timestamp}

theorem verify_sign_head
    (hsign : ∀ message, key.publicKey.verify .treeHeadSignDoc message (key.sign .treeHeadSignDoc message) = true)
    (hlog : w.log = .fromPublicKey key.publicKey) : ((w.head t).sign key).verify key.publicKey = .ok () := by
  unfold SignedTreeHead.verify
  simp [TreeHead.sign, WitnessLog.head, hlog, hsign, pure, Except.pure]

theorem check_sign_heads
    (hsign : ∀ message, key.publicKey.verify .treeHeadSignDoc message (key.sign .treeHeadSignDoc message) = true)
    (hlog : w.log = .fromPublicKey key.publicKey) (hlog' : w'.log = .fromPublicKey key.publicKey) :
    (Witness.Equivocation.mk ((w.head t).sign key) ((w'.head t').sign key)).check key.publicKey = .ok () ↔
      w.size = w'.size ∧ w.root ≠ w'.root := by
  unfold Witness.Equivocation.check
  dsimp only
  rw [verify_sign_head hsign hlog, verify_sign_head hsign hlog']
  simp only [TreeHead.sign, WitnessLog.head, hlog, hlog']
  by_cases hsize : w.size = w'.size
  · by_cases hroot : w.root = w'.root
    · simp [hsize, hroot, bind, Except.bind, throw, throwThe, MonadExceptOf.throw]
    · simp [hsize, hroot, bind, Except.bind, pure, Except.pure]
  · simp [hsize, bind, Except.bind, throw, throwThe, MonadExceptOf.throw]

end

/-- In every run of a witness, no pair of its signed heads convicts it exactly when any two heads of one size that are
of different chains, or past what a size can count, were signed over the same entries. -/
theorem honest_witness_convicted_iff [Crypto] (key : SecretKey)
    (hsign : ∀ message, key.publicKey.verify .treeHeadSignDoc message (key.sign .treeHeadSignDoc message) = true)
    (op : Operator) (hrun : Operator.Reachable key op) (hfree : CollisionFree op.hashed) :
    (∀ p ∈ op.signed, ∀ q ∈ op.signed, (Witness.Equivocation.mk p.2 q.2).check key.publicKey ≠ .ok ()) ↔
      ∀ p ∈ op.signed, ∀ q ∈ op.signed, (p.1.chainId ≠ q.1.chainId ∨ 2 ^ 64 - 1 ≤ p.1.entries.length) →
        p.1.size = q.1.size → p.1.entries = q.1.entries := by
  have hinv := hrun.inv
  have hashed_sub : ∀ p ∈ op.signed, p.1.hashed ⊆ op.hashed := fun p hp x hx => List.mem_flatMap.2 ⟨p, hp, hx⟩
  -- A pair convicts when the sizes agree and the entries do not.
  have hcheck : ∀ p ∈ op.signed, ∀ q ∈ op.signed,
      ((Witness.Equivocation.mk p.2 q.2).check key.publicKey = .ok () ↔
        p.1.size = q.1.size ∧ p.1.entries ≠ q.1.entries) := by
    intro p hp q hq
    obtain ⟨hlog, ⟨t, hhead⟩, -⟩ := hinv.signed_of p hp
    obtain ⟨hlog', ⟨t', hhead'⟩, -⟩ := hinv.signed_of q hq
    rw [hhead, hhead', check_sign_heads hsign hlog hlog']
    refine and_congr_right fun _ => not_congr ⟨?_, WitnessLog.root_congr⟩
    exact WitnessLog.entries_of_root_eq hfree (hashed_sub p hp) (hashed_sub q hq)
  constructor
  · intro hnone p hp q hq _ hsize
    by_contra hne
    exact hnone p hp q hq ((hcheck p hp q hq).2 ⟨hsize, hne⟩)
  · intro hsame p hp q hq hconvict
    obtain ⟨hsize, hne⟩ := (hcheck p hp q hq).1 hconvict
    by_cases hother : p.1.chainId ≠ q.1.chainId ∨ 2 ^ 64 - 1 ≤ p.1.entries.length
    · exact hne (hsame p hp q hq hother hsize)
    · -- Both are heads of one log that only grew, and of one length.
      rw [not_or, not_not, not_le] at hother
      obtain ⟨hchain, hshort⟩ := hother
      obtain ⟨-, -, hprefix⟩ := hinv.signed_of p hp
      obtain ⟨-, -, hprefix'⟩ := hinv.signed_of q hq
      rw [hchain] at hprefix
      have hlen := asU64_inj hshort hsize
      exact hne ((List.prefix_of_prefix_length_le hprefix hprefix' hlen.le).eq_of_length hlen)

namespace Sample

def otherChain : ChainId := ⟨"afrolink-2", by decide⟩

def sighting (n : Nat) : LogEntry := ⟨Fin.ofNat _ n, Fin.ofNat _ n, Fin.ofNat _ n⟩

def recorded (op : Operator) (c : ChainId) (n : Nat) : Operator :=
  { op with logs := Function.update op.logs c { op.logs c with entries := (op.logs c).entries ++ [sighting n] } }

def published (op : Operator) (c : ChainId) : Operator :=
  { op with signed := op.signed ++ [(op.logs c, ((op.logs c).head 0).sign (key 0))] }

theorem step_recorded {op : Operator} {c : ChainId} {n : Nat}
    (h : ∀ last ∈ (op.logs c).entries.getLast?,
      ¬ ((sighting n).height ≤ last.height ∨ (sighting n).observedAt ≤ last.observedAt)) :
    Operator.Step (key 0) op (recorded op c n) := by
  obtain ⟨index, happend⟩ := WitnessLog.append_of_later h
  exact .append happend

theorem step_published {op : Operator} {c : ChainId} (h : (op.logs c).log = .fromPublicKey (key 0).publicKey) :
    Operator.Step (key 0) op (published op c) :=
  .signHead (if_neg (not_not.2 h.symm))

/-- The first block of one chain and the second block of another, each in the log of its chain. -/
def twoChains : Operator :=
  published (published (recorded (recorded (.start (key 0)) chain 1) otherChain 2) chain) otherChain

/-- A witness of two chains, which logged one block of each and signed the head of each log, is convicted. -/
theorem honest_witness_convicted :
    Operator.Reachable (key 0) twoChains ∧
      ∃ p ∈ twoChains.signed, ∃ q ∈ twoChains.signed,
        (Witness.Equivocation.mk p.2 q.2).check (key 0).publicKey = .ok () := by
  refine ⟨?_, ?_⟩
  · refine (((Relation.ReflTransGen.single (step_recorded ?_)).tail (step_recorded ?_)).tail (step_published ?_)).tail
      (step_published ?_)
    all_goals decide +kernel
  · decide +kernel

/-- Two heads of one chain's log, before and after its second block. -/
def oneChain : Operator :=
  published (recorded (published (recorded (.start (key 0)) chain 1) chain) chain 2) chain

theorem honest_witness_convicted_iff_one :
    Operator.Reachable (key 0) oneChain ∧ ∀ p ∈ oneChain.signed, ∀ q ∈ oneChain.signed,
      (Witness.Equivocation.mk p.2 q.2).check (key 0).publicKey ≠ .ok () := by
  have hrun : Operator.Reachable (key 0) oneChain := by
    refine (((Relation.ReflTransGen.single (step_recorded ?_)).tail (step_published ?_)).tail (step_recorded ?_)).tail
      (step_published ?_)
    all_goals decide +kernel
  refine ⟨hrun, (honest_witness_convicted_iff (key 0) (sign_verifies (key 0) _) oneChain hrun ?_).2 ?_⟩
  · decide +kernel
  · decide +kernel

end Sample

end AfroLink
