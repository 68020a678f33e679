import AfroLink.Node.Lemmas.Heights
import AfroLink.Node.Theorems.Blocks
import AfroLink.P2p.Commits

/-!
# The durable chain

Heights are decided one after the other under the node's lock, and persisted after it is released.
-/

namespace AfroLink

/-- Every height up to the one on record has its block, its certificate and its receipts. -/
def ChainStore.Complete (c : ChainStore) : Prop :=
  ∀ height : Height, 1 ≤ height → height ≤ c.height →
    (c.block height).isSome = true ∧ (c.commit height).isSome = true ∧ (c.receipts height).isSome = true

namespace Committers

/-- Nothing is on its way, and the node works on the height after the store's. -/
structure Settled (s : Committers) : Prop where
  complete : s.sink.store.Complete
  next : s.node.height.val = s.sink.store.height.val + 1
  level : s.node.Level
  idle : ∀ thread, s.threads thread = []

/-- A thread hands over the lowest height of those captured; the node takes proposals for the height of their block,
and is not at the last height there is. -/
def InOrder (s : Committers) : Move → Prop
  | .act _ input => input.Fits ∧ s.node.height ≠ Fin.last _
  | .persist thread => ∀ f ∈ (s.threads thread).head?, ∀ other, ∀ g ∈ s.threads other, f.height ≤ g.height

end Committers

theorem Captured.finalised_quiet {c : Captured} (h : ∀ a ∈ c.actions, a.isCommitted = false) : c.finalised = [] := by
  refine List.filterMap_eq_nil_iff.2 fun a ha => ?_
  have hquiet := h a ha
  cases a <;> first | rfl | cases hquiet

theorem Captured.finalised_append {c : Captured} {as : List Action} {b : Block} {k : Commit}
    (hactions : c.actions = as ++ [.committed b k]) (h : ∀ a ∈ as, a.isCommitted = false) :
    c.finalised = [⟨b, k, c.receipts, c.state⟩] := by
  have hquiet : Captured.finalised { c with actions := as } = [] := finalised_quiet h
  unfold finalised at hquiet ⊢
  rw [hactions, List.filterMap_append, hquiet]
  rfl

section

variable [Crypto]

theorem ChainStore.indexFrom_ok {height : Height} {index : ℕ} {ts : List Transaction}
    {locations : Std.TreeMap Hash32 (Height × U32)} (h : index + ts.length ≤ 2 ^ 32) :
    ∃ locations', indexFrom height index ts locations = .ok locations' := by
  induction ts generalizing index locations with
  | nil => exact ⟨locations, rfl⟩
  | cons t rest ih =>
    rw [List.length_cons] at h
    unfold indexFrom
    rw [dif_pos (by omega)]
    exact ih (by omega)

theorem Persist.committed_store {σ : Type} {p : Persist σ} {f : Finalised σ} (hindex : f.block.Indexable)
    (hreceipts : f.receipts.length = f.block.transactions.length) :
    p.store.putBlock f.block f.commit f.receipts = .ok (p.committed f).store := by
  obtain ⟨locations, hlocations⟩ : ∃ locations,
      ChainStore.indexFrom f.block.header.height 0 f.block.transactions p.store.locations = .ok locations :=
    ChainStore.indexFrom_ok (by rwa [Nat.zero_add])
  obtain ⟨c, hc⟩ : ∃ c, p.store.putBlock f.block f.commit f.receipts = .ok c := by
    simp only [ChainStore.putBlock, hreceipts, ne_eq, not_true_eq_false, if_false]
    rw [hlocations]
    exact ⟨_, rfl⟩
  rw [hc]
  simp only [committed, proceed, hc]

theorem ChainStore.Complete.putBlock {c c' : ChainStore} {b : Block} {k : Commit} {rs : List TxReceipt}
    (h : c.Complete) (hput : c.putBlock b k rs = .ok c') (hnext : b.header.height.val = c.height.val + 1) :
    c'.Complete := by
  intro height hpos hle
  rw [putBlock_block hput, putBlock_commit hput, putBlock_receipts hput]
  rw [putBlock_height hput] at hle
  by_cases hnew : b.header.height = height
  · simp [hnew]
  · simp only [if_neg hnew]
    refine h height hpos ?_
    have hne : b.header.height.val ≠ height.val := fun heq => hnew (Fin.ext heq)
    have hle : height.val ≤ b.header.height.val := by
      rcases le_max_iff.1 hle with hold | hnew
      · exact (Fin.le_def.1 hold).trans (by omega)
      · exact hnew
    exact Fin.le_def.2 (by omega)

end

namespace Committers

section

/-- What holds at every point of a run in order: the heights between the store's and the node's are each held by one
thread, and nothing else is. -/
structure Sequenced (calls : List (Finalised Store)) (s : Committers) : Prop where
  complete : s.sink.store.Complete
  level : s.node.Level
  behind : s.sink.store.height < s.node.height
  pending : ∀ height : Height, (∃ thread, ∃ f ∈ s.threads thread, f.height = height) ↔
    s.sink.store.height < height ∧ height < s.node.height
  single : ∀ thread, (s.threads thread).length ≤ 1
  owner : ∀ thread other, ∀ f ∈ s.threads thread, ∀ g ∈ s.threads other, f.height = g.height → thread = other
  storable : ∀ thread, ∀ f ∈ s.threads thread,
    f.block.Indexable ∧ f.receipts.length = f.block.transactions.length
  ascending : (calls.map Finalised.height).Pairwise (· < ·)
  stored : ∀ f ∈ calls, f.height ≤ s.sink.store.height

theorem Settled.sequenced {s : Committers} (h : s.Settled) : Sequenced [] s := by
  refine ⟨h.complete, h.level, Fin.lt_def.2 (by have := h.next; omega), ?_, ?_, ?_, ?_, .nil, by simp⟩
  · intro height
    simp only [h.idle, List.not_mem_nil, false_and, exists_false, false_iff, not_and]
    intro hlt
    have hnext := h.next
    have := Fin.lt_def.1 hlt
    exact fun hlt' => by
      have := Fin.lt_def.1 hlt'
      omega
  · simp [h.idle]
  · simp [h.idle]
  · simp [h.idle]

variable {calls : List (Finalised Store)} {s : Committers}

variable {f : Finalised Store} {thread : ℕ}

theorem mem_threads_update {other : ℕ} {held : List (Finalised Store)} :
    f ∈ Function.update s.threads thread held other ↔
      (other = thread ∧ f ∈ held) ∨ (other ≠ thread ∧ f ∈ s.threads other) := by
  by_cases h : other = thread
  · subst h
    simp
  · simp [h]

theorem Sequenced.stay {node : Node} (h : Sequenced calls s) (hidle : s.threads thread = [])
    (hheight : node.height = s.node.height) (hlevel : node.Level) :
    Sequenced calls { s with node, threads := Function.update s.threads thread [] } := by
  rw [← hidle, Function.update_eq_self]
  refine ⟨h.complete, hlevel, hheight ▸ h.behind, ?_, h.single, h.owner, h.storable, h.ascending, h.stored⟩
  show ∀ height : Height, _ ↔ _ ∧ height < node.height
  rw [hheight]
  exact h.pending

theorem Sequenced.retire {node : Node} (h : Sequenced calls s)
    (hidle : s.threads thread = []) (hheight : node.height.val = s.node.height.val + 1) (hlevel : node.Level)
    (hf : f.height = s.node.height) (hindex : f.block.Indexable)
    (hreceipts : f.receipts.length = f.block.transactions.length) :
    Sequenced calls { s with node, threads := Function.update s.threads thread [f] } := by
  have hgrows : s.node.height < node.height := Fin.lt_def.2 (by omega)
  -- what the other threads hold is below the height that was retired
  have hlower : ∀ other, ∀ g ∈ s.threads other, g.height ≠ f.height := by
    intro other g hg heq
    have hlt := ((h.pending g.height).1 ⟨other, g, hg, rfl⟩).2
    rw [heq, hf] at hlt
    exact lt_irrefl _ hlt
  refine ⟨h.complete, hlevel, h.behind.trans hgrows, ?_, ?_, ?_, ?_, h.ascending, h.stored⟩
  · intro height
    show _ ↔ s.sink.store.height < height ∧ height < node.height
    constructor
    · rintro ⟨other, g, hg, rfl⟩
      obtain ⟨rfl, hnew⟩ | ⟨-, hold⟩ := mem_threads_update.1 hg
      · rw [List.mem_singleton.1 hnew, hf]
        exact ⟨h.behind, hgrows⟩
      · obtain ⟨hlow, hhigh⟩ := (h.pending g.height).1 ⟨other, g, hold, rfl⟩
        exact ⟨hlow, hhigh.trans hgrows⟩
    · rintro ⟨hlow, hhigh⟩
      by_cases hnew : height = s.node.height
      · exact ⟨thread, f, mem_threads_update.2 (.inl ⟨rfl, .head _⟩), hf.trans hnew.symm⟩
      · have hne : height.val ≠ s.node.height.val := fun heq => hnew (Fin.ext heq)
        have := Fin.lt_def.1 hhigh
        obtain ⟨other, g, hg, hheight⟩ := (h.pending height).2 ⟨hlow, Fin.lt_def.2 (by omega)⟩
        refine ⟨other, g, mem_threads_update.2 (.inr ⟨?_, hg⟩), hheight⟩
        rintro rfl
        rw [hidle] at hg
        cases hg
  · intro other
    show (Function.update s.threads thread [f] other).length ≤ 1
    by_cases heq : other = thread
    · simp [heq]
    · rw [Function.update_of_ne heq]
      exact h.single other
  · intro one other g hg g' hg' heq
    obtain ⟨rfl, hnew⟩ | ⟨-, hold⟩ := mem_threads_update.1 hg
    · obtain ⟨rfl, -⟩ | ⟨-, hold'⟩ := mem_threads_update.1 hg'
      · rfl
      · exact absurd (List.mem_singleton.1 hnew ▸ heq.symm) (hlower other g' hold')
    · obtain ⟨rfl, hnew'⟩ | ⟨-, hold'⟩ := mem_threads_update.1 hg'
      · exact absurd (List.mem_singleton.1 hnew' ▸ heq) (hlower one g hold)
      · exact h.owner one other g hold g' hold' heq
  · intro other g hg
    obtain ⟨-, hnew⟩ | ⟨-, hold⟩ := mem_threads_update.1 hg
    · rw [List.mem_singleton.1 hnew]
      exact ⟨hindex, hreceipts⟩
    · exact h.storable other g hold

theorem Sequenced.lowest (h : Sequenced calls s) (hf : f ∈ s.threads thread)
    (hlow : ∀ other, ∀ g ∈ s.threads other, f.height ≤ g.height) : f.height.val = s.sink.store.height.val + 1 := by
  obtain ⟨habove, hbelow⟩ := (h.pending f.height).1 ⟨thread, f, hf, rfl⟩
  have habove := Fin.lt_def.1 habove
  have hbelow := Fin.lt_def.1 hbelow
  let next : Height := ⟨s.sink.store.height.val + 1, by have := f.height.isLt; omega⟩
  have hnext : next.val = s.sink.store.height.val + 1 := rfl
  obtain ⟨other, g, hg, hheight⟩ := (h.pending next).2 ⟨Fin.lt_def.2 (by omega), Fin.lt_def.2 (by omega)⟩
  have hle := Fin.le_def.1 (hlow other g hg)
  rw [hheight] at hle
  omega

theorem Sequenced.persist [Crypto] {rest : List (Finalised Store)}
    (h : Sequenced calls s) (hthread : s.threads thread = f :: rest)
    (hlow : ∀ other, ∀ g ∈ s.threads other, f.height ≤ g.height) : Sequenced (calls ++ [f])
      { s with sink := s.sink.committed f, threads := Function.update s.threads thread rest } := by
  have hf : f ∈ s.threads thread := hthread ▸ .head _
  obtain rfl : rest = [] := by
    have hlen := h.single thread
    rw [hthread, List.length_cons] at hlen
    exact List.eq_nil_of_length_eq_zero (by omega)
  have hnext := h.lowest hf hlow
  obtain ⟨hindex, hreceipts⟩ := h.storable thread f hf
  have hput := Persist.committed_store (p := s.sink) hindex hreceipts
  have hheight : (s.sink.committed f).store.height = f.height := by
    rw [ChainStore.putBlock_height hput]
    exact max_eq_right (Fin.le_def.2 (show s.sink.store.height.val ≤ f.height.val by omega))
  have hmem : ∀ other g, g ∈ Function.update s.threads thread [] other ↔ g ∈ s.threads other ∧ g.height ≠ f.height := by
    intro other g
    rw [mem_threads_update]
    constructor
    · rintro (⟨-, hnil⟩ | ⟨hne, hg⟩)
      · cases hnil
      · exact ⟨hg, fun heq => hne (h.owner other thread g hg f hf heq)⟩
    · rintro ⟨hg, hne⟩
      refine .inr ⟨?_, hg⟩
      rintro rfl
      rw [hthread] at hg
      exact hne (congrArg Finalised.height (List.mem_singleton.1 hg))
  have hbelow := ((h.pending f.height).1 ⟨thread, f, hf, rfl⟩).2
  refine ⟨h.complete.putBlock hput hnext, h.level, ?_, ?_, ?_, ?_, ?_, ?_, ?_⟩
  · show (s.sink.committed f).store.height < s.node.height
    rw [hheight]
    exact hbelow
  · intro height
    show _ ↔ (s.sink.committed f).store.height < height ∧ height < s.node.height
    rw [hheight]
    have hsplit : f.height < height ↔ s.sink.store.height < height ∧ height ≠ f.height := by
      rw [Fin.lt_def, Fin.lt_def, Ne, Fin.ext_iff]
      omega
    rw [hsplit, and_right_comm, ← h.pending height]
    constructor
    · rintro ⟨other, g, hg, rfl⟩
      obtain ⟨hg, hne⟩ := (hmem other g).1 hg
      exact ⟨⟨other, g, hg, rfl⟩, hne⟩
    · rintro ⟨⟨other, g, hg, rfl⟩, hne⟩
      exact ⟨other, g, (hmem other g).2 ⟨hg, hne⟩, rfl⟩
  · intro other
    show (Function.update s.threads thread [] other).length ≤ 1
    by_cases heq : other = thread
    · simp [heq]
    · rw [Function.update_of_ne heq]
      exact h.single other
  · exact fun one other g hg g' hg' => h.owner one other g ((hmem one g).1 hg).1 g' ((hmem other g').1 hg').1
  · exact fun other g hg => h.storable other g ((hmem other g).1 hg).1
  · rw [List.map_append]
    refine List.pairwise_append.2 ⟨h.ascending, List.pairwise_singleton _ _, ?_⟩
    intro past hpast new hnew
    obtain ⟨g, hg, rfl⟩ := List.mem_map.1 hpast
    have hle := Fin.le_def.1 (h.stored g hg)
    rw [List.mem_singleton.1 hnew]
    exact Fin.lt_def.2 (by omega)
  · intro g hg
    show g.height ≤ (s.sink.committed f).store.height
    rw [hheight]
    cases List.mem_append.1 hg with
    | inl hold =>
      have hle := Fin.le_def.1 (h.stored g hold)
      exact Fin.le_def.2 (by omega)
    | inr hnew => exact (congrArg Finalised.height (List.mem_singleton.1 hnew)).le

theorem Sequenced.act [Crypto] [StateRoot] {input : Node.Input} (h : Sequenced calls s)
    (hidle : s.threads thread = []) (hfits : input.Fits) (hlast : s.node.height ≠ Fin.last _) : Sequenced calls { s with
      node := (capture s.node input).1
      threads := Function.update s.threads thread (capture s.node input).2.finalised } := by
  have hret := Node.step_retires h.level hfits
  unfold capture
  generalize s.node.step input = r at hret
  cases hret with
  | stays height level quiet =>
    rw [Captured.finalised_quiet quiet]
    exact h.stay hidle height level
  | moves height proposals quiet fits receipts =>
    rw [Captured.finalised_append rfl quiet]
    refine h.retire hidle ?_ ?_ fits.1 fits.2 receipts
    · have hne : s.node.height.val ≠ 2 ^ 64 - 1 := fun heq => hlast (Fin.ext heq)
      have := s.node.height.isLt
      rw [height, Height.next, Fin.saturatingAdd_val]
      show min (s.node.height.val + 1) (2 ^ 64 - 1) = _
      omega
    · intro round signed hsigned
      rw [proposals] at hsigned
      simp at hsigned

theorem step_act_threads [Crypto] [StateRoot] {other : ℕ} (hne : other ≠ thread) (input : Node.Input) :
    (s.step (.act thread input)).1.threads other = s.threads other := by
  simp only [Committers.step]
  split
  · exact Function.update_of_ne hne _ _
  · rfl

theorem StepsWhen.act [Crypto] [StateRoot] {C : Committers → Move → Prop} {input : Node.Input}
    (h : C s (.act thread input)) : StepsWhen C s [] (s.step (.act thread input)).1 := by
  refine ⟨_, h, Prod.ext rfl ?_⟩
  simp only [Committers.step]
  split <;> rfl

theorem Sequenced.step [Crypto] [StateRoot] {s' : Committers} {new : List (Finalised Store)} (h : Sequenced calls s)
    (hstep : StepsWhen InOrder s new s') : Sequenced (calls ++ new) s' := by
  obtain ⟨move, horder, heq⟩ := hstep
  cases move with
  | act thread input =>
    simp only [Committers.step] at heq
    cases hthread : s.threads thread with
    | nil =>
      rw [hthread] at heq
      cases heq
      rw [List.append_nil]
      exact h.act hthread horder.1 horder.2
    | cons f rest =>
      rw [hthread] at heq
      cases heq
      rwa [List.append_nil]
  | persist thread =>
    simp only [Committers.step] at heq
    cases hthread : s.threads thread with
    | nil =>
      rw [hthread] at heq
      cases heq
      rwa [List.append_nil]
    | cons f rest =>
      rw [hthread] at heq
      cases heq
      exact h.persist hthread (horder f (by rw [hthread]; rfl))

end

/-- In every run in which the threads persist in the order of heights, wherever it stops. -/
theorem durable_chain_no_gaps [Crypto] [StateRoot] {start s : Committers} {calls : List (Finalised Store)}
    (hstart : start.Settled) (hrun : Trace (StepsWhen InOrder) start calls s) :
    (calls.map Finalised.height).Pairwise (· < ·) ∧ s.sink.store.Complete := by
  have hseq : Sequenced calls s :=
    hrun.invariant_nil (fun _ _ _ _ hseq hstep => hseq.step hstep) hstart.sequenced
  exact ⟨hseq.ascending, hseq.complete⟩

end Committers

namespace Sample

open Committers

/-- A new store, and the node of the one validator before the first height. -/
def committers : Committers := ⟨solo, ⟨.new, ⟨0, solo.store⟩, none⟩, fun _ => []⟩

/-- A peer's thread syncs the first height, and before it hands it over the driver's decides the second. -/
def overtaken : List Move := [.act 0 (.sync bare (soloCommit bare)), .act 1 (.start 300), .persist 1]

theorem committers_settled : committers.Settled := by
  refine ⟨?_, by decide +kernel, ?_, fun _ => rfl⟩
  · intro height hpos hle
    exact absurd (hpos.trans hle) (by decide +kernel)
  · intro round signed hsigned
    cases hsigned

theorem durable_chain_gap :
    committers.Settled ∧
    (committers.run overtaken).2.map Finalised.height = [2] ∧
    (committers.run overtaken).1.sink.store.height = 2 ∧
    ((committers.run overtaken).1.sink.store.block 1).isSome = false ∧
    (committers.run (overtaken ++ [.persist 0])).2.map Finalised.height = [2, 1] := by
  refine ⟨committers_settled, ?_, ?_, ?_, ?_⟩ <;> decide +kernel

def synced : Committers := (committers.step (.act 0 (.sync bare (soloCommit bare)))).1

def captured : Committers := (synced.step (.act 1 (.start 300))).1

theorem captured_threads {thread : ℕ} {f : Finalised Store} (h : f ∈ captured.threads thread) :
    thread = 0 ∧ f.height = 1 ∨ thread = 1 ∧ f.height = 2 := by
  have hzero : (captured.threads 0).map Finalised.height = [1] := by decide +kernel
  have hone : (captured.threads 1).map Finalised.height = [2] := by decide +kernel
  by_cases h0 : thread = 0
  · subst h0
    exact .inl ⟨rfl, List.mem_singleton.1 (hzero ▸ List.mem_map_of_mem h)⟩
  · by_cases h1 : thread = 1
    · subst h1
      exact .inr ⟨rfl, List.mem_singleton.1 (hone ▸ List.mem_map_of_mem h)⟩
    · rw [captured, step_act_threads h1, synced, step_act_threads h0] at h
      cases h

theorem captured_persist : InOrder captured (.persist 0) := by
  intro f hf other g hg
  have hf : f ∈ captured.threads 0 := List.mem_of_mem_head? hf
  obtain ⟨-, hheight⟩ | ⟨hthread, -⟩ := captured_threads hf
  · obtain ⟨-, hother⟩ | ⟨-, hother⟩ := captured_threads hg
    · rw [hheight, hother]
    · rw [hheight, hother]
      decide
  · cases hthread

theorem durable_chain_no_gaps_first :
    ∃ calls s, Trace (StepsWhen InOrder) committers calls s ∧ calls.map Finalised.height = [1] ∧
      s.sink.store.height = 1 ∧ (calls.map Finalised.height).Pairwise (· < ·) ∧ s.sink.store.Complete := by
  have hsync : StepsWhen InOrder committers [] synced := .act ⟨trivial, by decide +kernel⟩
  have hstart : StepsWhen InOrder synced [] captured := .act ⟨trivial, by decide +kernel⟩
  have hpersist : StepsWhen InOrder captured (captured.step (.persist 0)).2 (captured.step (.persist 0)).1 :=
    ⟨.persist 0, captured_persist, Prod.mk.eta.symm⟩
  have hrun := Trace.cons hsync (.cons hstart (.single hpersist))
  have hgapless := durable_chain_no_gaps committers_settled hrun
  have hcalls : (captured.step (.persist 0)).2.map Finalised.height = [1] := by decide +kernel
  have hheight : (captured.step (.persist 0)).1.sink.store.height = 1 := by decide +kernel
  generalize captured.step (.persist 0) = r at *
  exact ⟨_, _, hrun, hcalls, hheight, hgapless⟩

end Sample

end AfroLink
