import AfroLink.Base.Trace
import AfroLink.Crypto.Sample
import AfroLink.Daemon.Chain
import AfroLink.Store.Lemmas

/-!
# Served proofs verify

Calls of `Persist::committed` from any number of threads, interleaved with queries.
-/

namespace AfroLink

/-- The sink, and the calls that have come to it. -/
structure Serving where
  sink : Persist MemoryStore
  calls : List (Finalised MemoryStore × Stage)

/-- What can be seen of a run. An answer is seen with the block the store has at its height. -/
inductive Happening where
  | entered (f : Finalised MemoryStore)
  | published (height : Height)
  | answered (query : Query) (value : ProvedValue) (stored : Option Block)

namespace Happening

def label : Happening → Option Height
  | answered _ value _ => some value.height
  | _ => none

variable [Crypto]

/-- An answer under a height that was published before it is proved by the block the store had there. -/
def Backs : Happening → Happening → Prop
  | published height, answered query value stored => value.height = height → ∃ b key, stored = some b ∧
      query.storeKey = some key ∧ value.proof.verify b.header.appHash key.asBytes value.value = true
  | _, _ => True

end Happening

namespace Serving

variable [Crypto]

/-- A thread makes a call, a call takes its next step, or a query is answered. -/
inductive Steps (s : Serving) : List Happening → Serving → Prop where
  | enter (f : Finalised MemoryStore) : Steps s [.entered f] { s with calls := s.calls ++ [(f, .entered)] }
  | proceed (i : ℕ) (f : Finalised MemoryStore) (stage stage' : Stage) (sink : Persist MemoryStore)
      (disk : Option String) (hcall : s.calls[i]? = some (f, stage)) (h : s.sink.proceed f disk stage = (sink, stage')) :
      Steps s (if stage = .stored ∧ stage' = .published then [.published f.height] else [])
        ⟨sink, s.calls.set i (f, stage')⟩
  | ask (query : Query) (value : ProvedValue) (h : LiveChain.answer s.sink.view query = some value) :
      Steps s [.answered query value (s.sink.store.block value.height)] s

end Serving

/-! ## What a step of a call does -/

section

variable [Crypto] {σ : Type} {p p' : Persist σ} {f : Finalised σ} {disk : Option String} {stage stage' : Stage}

theorem Persist.proceed_cases (h : p.proceed f disk stage = (p', stage')) :
    (p'.store = p.store ∧ p'.view = p.view ∧ (stage' = stage ∨ stage' = .persisted ∨ stage' = .failed)) ∨
    (stage' = .stored ∧ p'.view = p.view ∧ p.store.putBlock f.block f.commit f.receipts = .ok p'.store) ∨
    (stage = .stored ∧ p'.store = p.store ∧
      (f.height < p.view.at_ ∧ p'.view = p.view ∧ stage' = .superseded ∨
        p.view.at_ ≤ f.height ∧ p'.view = ⟨f.height, f.state⟩ ∧ stage' = .published)) := by
  cases stage with
  | entered =>
    cases disk with
    | none =>
      cases h
      exact .inl ⟨rfl, rfl, .inr (.inl rfl)⟩
    | some e =>
      cases h
      exact .inl ⟨rfl, rfl, .inr (.inr rfl)⟩
  | persisted =>
    cases disk with
    | some e =>
      cases h
      exact .inl ⟨rfl, rfl, .inr (.inr rfl)⟩
    | none =>
      cases hput : p.store.putBlock f.block f.commit f.receipts with
      | error e =>
        simp only [proceed, hput] at h
        cases h
        exact .inl ⟨rfl, rfl, .inr (.inr rfl)⟩
      | ok store =>
        simp only [proceed, hput] at h
        cases h
        exact .inr (.inl ⟨rfl, rfl, rfl⟩)
  | stored =>
    by_cases hold : f.height < p.view.at_
    · simp only [proceed, Published.advance, if_pos hold] at h
      cases h
      exact .inr (.inr ⟨rfl, rfl, .inl ⟨hold, rfl, rfl⟩⟩)
    · simp only [proceed, Published.advance, if_neg hold] at h
      cases h
      exact .inr (.inr ⟨rfl, rfl, .inr ⟨not_lt.1 hold, rfl, rfl⟩⟩)
  | published =>
    cases h
    exact .inl ⟨rfl, rfl, .inl rfl⟩
  | superseded =>
    cases h
    exact .inl ⟨rfl, rfl, .inl rfl⟩
  | failed =>
    cases h
    exact .inl ⟨rfl, rfl, .inl rfl⟩

end

/-! ## The invariant -/

namespace Serving

section

variable [Crypto] {calls : Set (Finalised MemoryStore)} {hist : List Happening} {s : Serving}

/-- What holds at every point of a run in which only `calls` come in. -/
structure Sound (calls : Set (Finalised MemoryStore)) (hist : List Happening) (s : Serving) : Prop where
  known : ∀ call ∈ s.calls, call.1 ∈ calls
  stored : ∀ f, (f, .stored) ∈ s.calls → s.sink.store.block f.height = some f.block
  published : ∀ height, .published height ∈ hist → height ≤ s.sink.view.at_ ∧
    (height = s.sink.view.at_ → ∃ f ∈ calls, f.height = height ∧ s.sink.view.state = f.state ∧
      s.sink.store.block height = some f.block)
  backed : hist.Pairwise Happening.Backs
  behind : ∀ label ∈ hist.filterMap Happening.label, label ≤ s.sink.view.at_
  ordered : (hist.filterMap Happening.label).Pairwise (· ≤ ·)

theorem Sound.pairwise_concat {a : Happening} (h : Sound calls hist s) (ha : a.label = none) :
    (hist ++ [a]).Pairwise Happening.Backs ∧ (hist ++ [a]).filterMap Happening.label =
      hist.filterMap Happening.label := by
  refine ⟨List.pairwise_append.2 ⟨h.backed, List.pairwise_singleton _ _, ?_⟩, ?_⟩
  · intro x _ y hy
    rw [← List.mem_singleton.1 hy] at ha
    cases y with
    | entered f => cases x <;> trivial
    | published height => cases x <;> trivial
    | answered query value stored => cases ha
  · rw [List.filterMap_append, List.filterMap_cons_none ha]
    exact List.append_nil _

variable {f : Finalised MemoryStore} {stage : Stage} {i : ℕ} {sink : Persist MemoryStore}

theorem Sound.enter (h : Sound calls hist s) (hf : f ∈ calls) :
    Sound calls (hist ++ [.entered f]) { s with calls := s.calls ++ [(f, .entered)] } := by
  obtain ⟨hbacked, hlabels⟩ := h.pairwise_concat (a := .entered f) rfl
  refine ⟨?_, ?_, ?_, hbacked, hlabels ▸ h.behind, hlabels ▸ h.ordered⟩
  · intro call hcall
    cases List.mem_append.1 hcall with
    | inl hold => exact h.known call hold
    | inr hnew => exact List.mem_singleton.1 hnew ▸ hf
  · intro g hg
    refine h.stored g ((List.mem_append.1 hg).resolve_right ?_)
    simp
  · intro height hmem
    refine h.published height ((List.mem_append.1 hmem).resolve_right ?_)
    simp

theorem Sound.ask {query : Query} {value : ProvedValue} (hroots : ∀ f ∈ calls, f.state.root = f.block.header.appHash)
    (h : Sound calls hist s) (hanswer : LiveChain.answer s.sink.view query = some value) :
    Sound calls (hist ++ [.answered query value (s.sink.store.block value.height)]) s := by
  obtain ⟨key, hkey, rfl⟩ := LiveChain.answer_eq_some.1 hanswer
  refine ⟨h.known, h.stored, ?_, List.pairwise_append.2 ⟨h.backed, List.pairwise_singleton _ _, ?_⟩, ?_, ?_⟩
  · intro height hmem
    refine h.published height ((List.mem_append.1 hmem).resolve_right ?_)
    simp
  · intro x hx y hy
    obtain rfl := List.mem_singleton.1 hy
    cases x with
    | published height =>
      intro hlabel
      obtain ⟨f, hf, -, hstate, hblock⟩ := (h.published height hx).2 hlabel.symm
      refine ⟨f.block, key, hlabel ▸ hblock, hkey, ?_⟩
      rw [← hroots f hf, ← hstate]
      exact s.sink.view.state.getWithProof_verifies key
    | entered f => trivial
    | answered query value stored => trivial
  · intro label hlabel
    rw [List.filterMap_append] at hlabel
    cases List.mem_append.1 hlabel with
    | inl hold => exact h.behind label hold
    | inr hnew => exact (List.mem_singleton.1 hnew).le
  · rw [List.filterMap_append]
    refine List.pairwise_append.2 ⟨h.ordered, List.pairwise_singleton _ _, ?_⟩
    intro label hlabel new hnew
    exact List.mem_singleton.1 hnew ▸ h.behind label hlabel

theorem Sound.known_set (h : Sound calls hist s)
    (hcall : s.calls[i]? = some (f, stage)) (stage' : Stage) : ∀ call ∈ s.calls.set i (f, stage'), call.1 ∈ calls := by
  intro call hset
  cases List.mem_or_eq_of_mem_set hset with
  | inl hold => exact h.known call hold
  | inr hnew =>
    rw [hnew]
    exact h.known (f, stage) (List.mem_of_getElem? hcall)

theorem Sound.wait {stage' : Stage}
    (h : Sound calls hist s) (hcall : s.calls[i]? = some (f, stage)) (hstore : sink.store = s.sink.store)
    (hview : sink.view = s.sink.view) (hstage : stage' = .stored → stage = .stored) :
    Sound calls hist ⟨sink, s.calls.set i (f, stage')⟩ := by
  have hmem := List.mem_of_getElem? hcall
  refine ⟨h.known_set hcall _, ?_, ?_, h.backed, ?_, h.ordered⟩
  · intro g hset
    show sink.store.block _ = _
    rw [hstore]
    cases List.mem_or_eq_of_mem_set hset with
    | inl hold => exact h.stored g hold
    | inr hnew =>
      obtain ⟨rfl, hg⟩ := Prod.mk.inj hnew
      exact h.stored g (hstage hg.symm ▸ hmem)
  · show ∀ height, _ → height ≤ sink.view.at_ ∧ (height = sink.view.at_ → ∃ f ∈ calls, f.height = height ∧
      sink.view.state = f.state ∧ sink.store.block height = some f.block)
    rw [hstore, hview]
    exact h.published
  · show ∀ label ∈ _, label ≤ sink.view.at_
    rw [hview]
    exact h.behind

theorem Sound.store
    (hblocks : ∀ f ∈ calls, ∀ g ∈ calls, f.height = g.height → f.block = g.block) (h : Sound calls hist s)
    (hcall : s.calls[i]? = some (f, stage)) (hput : s.sink.store.putBlock f.block f.commit f.receipts = .ok sink.store)
    (hview : sink.view = s.sink.view) : Sound calls hist ⟨sink, s.calls.set i (f, .stored)⟩ := by
  have hmem := List.mem_of_getElem? hcall
  have hf := h.known _ hmem
  -- one block a height, so what was stored at a height of the calls is still there
  have hkeep : ∀ g ∈ calls, (s.sink.store.block g.height = some g.block ∨ g = f) →
      sink.store.block g.height = some g.block := by
    intro g hg hold
    rw [ChainStore.putBlock_block hput]
    split
    · rename_i hheight
      exact congrArg some (hblocks f hf g hg hheight)
    · rename_i hheight
      refine hold.resolve_right ?_
      rintro rfl
      exact hheight rfl
  refine ⟨h.known_set hcall _, ?_, ?_, h.backed, ?_, h.ordered⟩
  · intro g hset
    cases List.mem_or_eq_of_mem_set hset with
    | inl hold => exact hkeep g (h.known _ hold) (.inl (h.stored g hold))
    | inr hnew => exact hkeep g ((Prod.mk.inj hnew).1 ▸ hf) (.inr (Prod.mk.inj hnew).1)
  · intro height hpub
    show height ≤ sink.view.at_ ∧ (height = sink.view.at_ → ∃ f ∈ calls, f.height = height ∧
      sink.view.state = f.state ∧ sink.store.block height = some f.block)
    rw [hview]
    refine ⟨(h.published height hpub).1, fun hat => ?_⟩
    obtain ⟨g, hg, hheight, hstate, hblock⟩ := (h.published height hpub).2 hat
    refine ⟨g, hg, hheight, hstate, ?_⟩
    rw [← hheight] at hblock ⊢
    exact hkeep g hg (.inl hblock)
  · show ∀ label ∈ _, label ≤ sink.view.at_
    rw [hview]
    exact h.behind

theorem Sound.publish (h : Sound calls hist s)
    (hcall : s.calls[i]? = some (f, .stored)) (hstore : sink.store = s.sink.store)
    (hview : sink.view = ⟨f.height, f.state⟩) (hle : s.sink.view.at_ ≤ f.height) :
    Sound calls (hist ++ [.published f.height]) ⟨sink, s.calls.set i (f, .published)⟩ := by
  have hmem := List.mem_of_getElem? hcall
  have hat : sink.view.at_ = f.height := by rw [hview]
  obtain ⟨hbacked, hlabels⟩ := h.pairwise_concat (a := .published f.height) rfl
  refine ⟨h.known_set hcall _, ?_, ?_, hbacked, ?_, hlabels ▸ h.ordered⟩
  · intro g hset
    show sink.store.block _ = _
    rw [hstore]
    refine h.stored g ((List.mem_or_eq_of_mem_set hset).resolve_right ?_)
    simp
  · intro height hpub
    have hheight : height ≤ f.height := by
      cases List.mem_append.1 hpub with
      | inl hold => exact (h.published height hold).1.trans hle
      | inr hnew => exact (Happening.published.inj (List.mem_singleton.1 hnew)).le
    refine ⟨hheight.trans hat.ge, fun hnow => ⟨f, h.known _ hmem, (hnow.trans hat).symm, ?_, ?_⟩⟩
    · show sink.view.state = f.state
      rw [hview]
    · show sink.store.block height = some f.block
      rw [hstore, hnow.trans hat]
      exact h.stored f hmem
  · rw [hlabels]
    exact fun label hlabel => (h.behind label hlabel).trans (hle.trans hat.ge)

theorem Sound.step {as : List Happening} {s' : Serving}
    (hroots : ∀ f ∈ calls, f.state.root = f.block.header.appHash)
    (hblocks : ∀ f ∈ calls, ∀ g ∈ calls, f.height = g.height → f.block = g.block) (h : Sound calls hist s)
    (hstep : Steps s as s') (hcalls : ∀ f, .entered f ∈ as → f ∈ calls) : Sound calls (hist ++ as) s' := by
  cases hstep with
  | enter f => exact h.enter (hcalls f (.head _))
  | ask query value hanswer => exact h.ask hroots hanswer
  | proceed i f stage stage' sink disk hcall hproceed =>
    obtain ⟨hstore, hview, hstage⟩ | ⟨rfl, hview, hput⟩ | ⟨rfl, hstore, hold | hnew⟩ := Persist.proceed_cases hproceed
    · have hquiet : ¬ (stage = .stored ∧ stage' = .published) := by
        rintro ⟨rfl, rfl⟩
        simp at hstage
      rw [if_neg hquiet, List.append_nil]
      refine h.wait hcall hstore hview fun hs => ?_
      subst hs
      simpa [eq_comm] using hstage
    · have hquiet : ¬ (stage = .stored ∧ Stage.stored = .published) := by simp
      rw [if_neg hquiet, List.append_nil]
      exact h.store hblocks hcall hput hview
    · obtain ⟨-, hview, rfl⟩ := hold
      have hquiet : ¬ (Stage.stored = .stored ∧ Stage.superseded = .published) := by simp
      rw [if_neg hquiet, List.append_nil]
      exact h.wait hcall hstore hview (by simp)
    · obtain ⟨hle, hview, rfl⟩ := hnew
      rw [if_pos ⟨rfl, rfl⟩]
      exact h.publish hcall hstore hview hle

end

end Serving

/-- Every answer under a height that was published in the run is proved by the block stored at that height, which was
stored when the answer was given; and the heights of the answers never go down. -/
theorem served_proofs_verify [Crypto] (start s : Serving) (hist : List Happening) (hstart : start.calls = [])
    (hrun : Trace Serving.Steps start hist s)
    (hroots : ∀ f, .entered f ∈ hist → f.state.root = f.block.header.appHash)
    (hblocks : ∀ f g, .entered f ∈ hist → .entered g ∈ hist → f.height = g.height → f.block = g.block) :
    hist.Pairwise Happening.Backs ∧ (hist.filterMap Happening.label).Pairwise (· ≤ ·) := by
  let calls : Set (Finalised MemoryStore) := { f | .entered f ∈ hist }
  have hknown := hrun.restrict (P := fun a => ∀ f, a = .entered f → f ∈ calls) (by
    rintro a ha f rfl
    exact ha)
  have hbegin : Serving.Sound calls [] start := by
    refine ⟨?_, ?_, ?_, .nil, ?_, .nil⟩
    · simp [hstart]
    · simp [hstart]
    · simp
    · simp
  have hend : Serving.Sound calls hist s := by
    refine hknown.invariant_nil ?_ hbegin
    rintro past t as t' ht ⟨hstep, hentered⟩
    exact ht.step hroots (fun f hf g hg => hblocks f g hf hg) hstep fun f hf => hentered _ hf f rfl
  exact ⟨hend.backed, hend.ordered⟩

namespace Sample

def balances (n : Nat) : MemoryStore := MemoryStore.new.set (.balance (addressOf 1) .native) [Fin.ofNat _ n]

def blockOf (n : Nat) : Block :=
  { header := { chainId := chain, height := Fin.ofNat _ n, time := 0, parent := 0, txRoot := 0
                appHash := (balances n).root, outcomeRoot := 0, validatorsHash := 0, nextValidatorsHash := 0 }
    transactions := [] }

def finalised (n : Nat) : Finalised MemoryStore :=
  ⟨blockOf n, ⟨Fin.ofNat _ n, 0, (blockOf n).header.id, []⟩, [], balances n⟩

def opening : Serving := ⟨⟨.new, ⟨0, balances 0⟩, none⟩, []⟩

/-- The balance of account 1 in the state of the second height, proved by the block that was stored for it. -/
theorem served_proofs_verify_second :
    ∃ c b key, ChainStore.new.putBlock (finalised 2).block (finalised 2).commit (finalised 2).receipts = .ok c ∧
      c.block (finalised 2).height = some b ∧ (Query.balance (addressOf 1) .native).storeKey = some key ∧
      ((finalised 2).state.getWithProof key).2.verify b.header.appHash key.asBytes
        ((finalised 2).state.getWithProof key).1 = true := by
  obtain ⟨c, hput⟩ : ∃ c, ChainStore.new.putBlock (finalised 2).block (finalised 2).commit (finalised 2).receipts =
    .ok c := ⟨_, rfl⟩
  have hroot : (finalised 2).state.root = (finalised 2).block.header.appHash := rfl
  generalize finalised 2 = f at *
  let query : Query := .balance (addressOf 1) .native
  let at_ (c : ChainStore) (view : LiveChain) (stage : Stage) : Serving := ⟨⟨c, view, none⟩, [(f, stage)]⟩
  let before : LiveChain := ⟨0, balances 0⟩
  let view : LiveChain := ⟨f.height, f.state⟩
  have henter : Serving.Steps opening [.entered f] (at_ .new before .entered) := .enter f
  have hstate : Serving.Steps (at_ .new before .entered) [] (at_ .new before .persisted) :=
    .proceed 0 f .entered .persisted _ none rfl rfl
  have hblock : Serving.Steps (at_ .new before .persisted) [] (at_ c before .stored) := by
    refine .proceed 0 f .persisted .stored _ none rfl ?_
    simp only [Persist.proceed]
    rw [show ChainStore.putBlock _ f.block f.commit f.receipts = _ from hput]
  have hadvance : before.advance f.height f.state = (view, true) := if_neg (Nat.not_lt_zero _)
  have hpublish : Serving.Steps (at_ c before .stored) [.published f.height] (at_ c view .published) := by
    refine .proceed 0 f .stored .published _ none rfl ?_
    simp only [Persist.proceed]
    rw [show Published.advance _ f.height f.state = _ from hadvance]
    rfl
  have hask := Serving.Steps.ask (s := at_ c view .published) query _ (LiveChain.answer_eq_some.2 ⟨_, rfl, rfl⟩)
  have hrun := Trace.cons henter (.cons hstate (.cons hblock (.cons hpublish (.single hask))))
  obtain ⟨hbacked, -⟩ := served_proofs_verify opening _ _ rfl hrun (by simp [hroot]) (by simp)
  have hanswer := List.rel_of_pairwise_cons (List.pairwise_cons.1 hbacked).2 (.head _)
  obtain ⟨b, key, hb, hkey, hproof⟩ := hanswer rfl
  obtain rfl := Option.some.inj hkey
  exact ⟨c, b, _, hput, hb, hkey, hproof⟩

end Sample

end AfroLink
