import Mathlib

/-!
# Traces

Runs of a labelled step relation, with everything the steps emit, in order.
-/

variable {σ α β : Type}

/-- `s` moves to `s'` by steps of `M`, emitting the list between them. -/
inductive Trace (M : σ → List α → σ → Prop) : σ → List α → σ → Prop where
  | nil (s : σ) : Trace M s [] s
  | cons {s t u : σ} {as bs : List α} : M s as t → Trace M t bs u → Trace M s (as ++ bs) u

namespace Trace

variable {M M' : σ → List α → σ → Prop} {s t u : σ} {as bs : List α}

theorem single (h : M s as t) : Trace M s as t := by
  simpa using Trace.cons h (.nil t)

theorem trans (h : Trace M s as t) (h' : Trace M t bs u) : Trace M s (as ++ bs) u := by
  induction h with
  | nil s => exact h'
  | cons hm _ ih =>
    rw [List.append_assoc]
    exact .cons hm (ih h')

theorem mono (h : Trace M s as t) (hM : ∀ {s as t}, M s as t → M' s as t) : Trace M' s as t := by
  induction h with
  | nil s => exact .nil s
  | cons hm _ ih => exact .cons (hM hm) ih

/-- A trace seen through what another relation says of its steps, keeping part of what they emit. -/
theorem filterMap {N : σ → List β → σ → Prop} (f : α → Option β) (h : Trace M s as t)
    (hstep : ∀ {s as t}, M s as t → N s (as.filterMap f) t) : Trace N s (as.filterMap f) t := by
  induction h with
  | nil s => exact .nil s
  | cons hm _ ih =>
    rw [List.filterMap_append]
    exact .cons (hstep hm) ih

theorem restrict {P : α → Prop} (h : Trace M s as t) (hP : ∀ a ∈ as, P a) :
    Trace (fun s as t => M s as t ∧ ∀ a ∈ as, P a) s as t := by
  induction h with
  | nil s => exact .nil s
  | cons hm _ ih =>
    exact .cons ⟨hm, fun a ha => hP a (List.mem_append_left _ ha)⟩ (ih fun a ha => hP a (List.mem_append_right _ ha))

variable {I : List α → σ → Prop} {write : σ → σ → β → α → β}

/-- A property of the history and the state that every step keeps holds at the end of every trace. -/
theorem invariant (hstep : ∀ hist s as t, I hist s → M s as t → I (hist ++ as) t)
    (h : Trace M s as t) {hist : List α} (h₀ : I hist s) : I (hist ++ as) t := by
  induction h generalizing hist with
  | nil s => simpa using h₀
  | cons hm _ ih =>
    rw [← List.append_assoc]
    exact ih (hstep _ _ _ _ h₀ hm)

theorem invariant_nil (hstep : ∀ hist s as t, I hist s → M s as t → I (hist ++ as) t)
    (h : Trace M s as t) (h₀ : I [] s) : I as t := by
  simpa using h.invariant hstep h₀

theorem preserves {I : σ → Prop} (hstep : ∀ s as t, I s → M s as t → I t) (h : Trace M s as t) (h₀ : I s) : I t := by
  induction h with
  | nil s => exact h₀
  | cons hm _ ih => exact ih (hstep _ _ _ h₀ hm)

theorem along {I : σ → Prop} (hstep : ∀ s as t, I s → M s as t → I t) (h : Trace M s as t) (h₀ : I s) :
    Trace (fun s as t => I s ∧ M s as t) s as t := by
  induction h with
  | nil s => exact .nil s
  | cons hm _ ih => exact .cons ⟨h₀, hm⟩ (ih (hstep _ _ _ h₀ hm))

theorem exists_step_of_mem (h : Trace M s as t) {a : α} (ha : a ∈ as) : ∃ s' bs t', M s' bs t' ∧ a ∈ bs := by
  induction h with
  | nil s => cases ha
  | @cons s t u as bs hm _ ih =>
    rcases List.mem_append.1 ha with ha | ha
    · exact ⟨s, as, t, hm, ha⟩
    · exact ih ha

theorem of_nil (hone : ∀ {s as t}, M s as t → ∃ a, as = [a]) (h : Trace M s [] u) : u = s := by
  generalize hall : [] = cs at h
  cases h with
  | nil => rfl
  | cons hm hrest =>
    obtain ⟨b, rfl⟩ := hone hm
    cases hall

theorem of_cons {a : α} (hone : ∀ {s as t}, M s as t → ∃ a, as = [a]) (h : Trace M s (a :: as) u) :
    ∃ t, M s [a] t ∧ Trace M t as u := by
  generalize hall : a :: as = cs at h
  cases h with
  | nil => cases hall
  | cons hm hrest =>
    obtain ⟨b, rfl⟩ := hone hm
    obtain ⟨rfl, rfl⟩ := List.cons.inj hall
    exact ⟨_, hm, hrest⟩

/-- Where each step emits one thing, what comes first was emitted by the first part of the trace. -/
theorem of_append (hone : ∀ {s as t}, M s as t → ∃ a, as = [a]) (h : Trace M s (as ++ bs) u) :
    ∃ t, Trace M s as t ∧ Trace M t bs u := by
  induction as generalizing s with
  | nil => exact ⟨s, .nil s, h⟩
  | cons a as ih =>
    obtain ⟨t, hm, hrest⟩ := of_cons hone h
    obtain ⟨t', hfirst, hlast⟩ := ih hrest
    exact ⟨t', .cons hm hfirst, hlast⟩

theorem exists_loss {P : σ → Prop} (h : Trace M s as t) (hs : P s) (ht : ¬ P t) :
    ∃ before bs after s₁ s₂, as = before ++ (bs ++ after) ∧ Trace M s before s₁ ∧ M s₁ bs s₂ ∧ Trace M s₂ after t ∧
      P s₁ ∧ ¬ P s₂ := by
  induction h with
  | nil s => exact absurd hs ht
  | @cons s t u as bs hm hrest ih =>
    by_cases hP : P t
    · obtain ⟨before, cs, after, s₁, s₂, rfl, hbefore, hloss⟩ := ih hP ht
      exact ⟨as ++ before, cs, after, s₁, s₂, by simp, .cons hm hbefore, hloss⟩
    · exact ⟨[], as, bs, s, t, rfl, .nil s, hm, hrest, hs, hP⟩

/-! ## Books kept beside a run -/

/-- A step with a book kept beside it: whatever it emits is written down, with an eye on the states around it. -/
def Beside (M : σ → List α → σ → Prop) (write : σ → σ → β → α → β) (p : σ × β) (as : List α) (p' : σ × β) : Prop :=
  M p.1 as p'.1 ∧ p'.2 = as.foldl (write p.1 p'.1) p.2

theorem exists_beside (h : Trace M s as t) (b : β) : ∃ b', Trace (Beside M write) (s, b) as (t, b') := by
  induction h generalizing b with
  | nil s => exact ⟨b, .nil _⟩
  | @cons s t u as bs hm _ ih =>
    obtain ⟨b', hrest⟩ := ih (as.foldl (write s t) b)
    exact ⟨b', .cons ⟨hm, rfl⟩ hrest⟩

theorem of_beside {p p' : σ × β} (h : Trace (Beside M write) p as p') : Trace M p.1 as p'.1 := by
  induction h with
  | nil p => exact .nil _
  | cons hm _ ih => exact .cons hm.1 ih

end Trace
