import Mathlib

/-!
# Programs over a mutable store that may fail

A function taking `&mut σ` and returning `Result<α, ε>` is an `EStateM ε σ α`: the
state it leaves is kept on failure as well. `Runs x s a s'` is a successful run, and `wp x Q E s` says that
`x` started in `s` ends in `Q` when it succeeds and in `E` when it fails. The rules for `wp` are simp
lemmas: unfolding a program and simplifying computes its weakest precondition.
-/

def Runs {ε σ α : Type} (x : EStateM ε σ α) (s : σ) (a : α) (s' : σ) : Prop :=
  x s = .ok a s'

namespace Runs

variable {ε σ α β : Type}

variable {s s' : σ} {a : α} {x : EStateM ε σ α}

@[simp] theorem pure_iff {b : α} : Runs (pure a : EStateM ε σ α) s b s' ↔ a = b ∧ s = s' := by
  simp [Runs, pure, EStateM.pure]

@[simp] theorem throw_iff {e : ε} {b : α} : Runs (throw e : EStateM ε σ α) s b s' ↔ False := by
  simp [Runs, throw, throwThe, MonadExceptOf.throw, EStateM.throw]

@[simp] theorem get_iff {t : σ} : Runs (get : EStateM ε σ σ) s t s' ↔ s = t ∧ s = s' := by
  simp [Runs, get, getThe, MonadStateOf.get, EStateM.get]

@[simp] theorem modify_iff {f : σ → σ} {u : PUnit} : Runs (modify f : EStateM ε σ PUnit) s u s' ↔ f s = s' := by
  simp [Runs, modify, modifyGet, MonadStateOf.modifyGet, EStateM.modifyGet]

@[simp] theorem bind_iff {f : α → EStateM ε σ β} {b : β} :
    Runs (x >>= f) s b s' ↔ ∃ a t, Runs x s a t ∧ Runs (f a) t b s' := by
  simp only [Runs, bind, EStateM.bind]
  cases x s with
  | ok a t => simp
  | error e t => simp

@[simp] theorem map_iff {f : α → β} {b : β} : Runs (f <$> x) s b s' ↔ ∃ a, Runs x s a s' ∧ f a = b := by
  simp only [Runs, Functor.map, EStateM.map]
  cases x s with
  | ok a t => simp [and_comm]
  | error e t => simp

@[simp] theorem ite_iff {c : Prop} [Decidable c] {y : EStateM ε σ α} :
    Runs (if c then x else y) s a s' ↔ c ∧ Runs x s a s' ∨ ¬ c ∧ Runs y s a s' := by
  split <;> simp_all

theorem guard_iff {c : Prop} [Decidable c] {e : ε} {k : PUnit → EStateM ε σ α} :
    Runs (if c then MonadExcept.throw e >>= k else k ⟨⟩) s a s' ↔ ¬ c ∧ Runs (k ⟨⟩) s a s' := by
  rw [ite_iff, bind_iff]
  simp

end Runs

/-! ## Results -/

namespace Except

variable {ε α β : Type}

theorem bind_eq_ok {x : Except ε α} {f : α → Except ε β} {b : β} :
    (x >>= f) = .ok b ↔ ∃ a, x = .ok a ∧ f a = .ok b := by
  cases x <;> simp [bind, Except.bind]

theorem guard_eq_ok {c : Prop} [Decidable c] {e : ε} {k : PUnit → Except ε β} {b : β} :
    (if c then MonadExcept.throw e >>= k else k ⟨⟩) = .ok b ↔ ¬ c ∧ k ⟨⟩ = .ok b := by
  split
  · simp [throw, throwThe, MonadExceptOf.throw, bind, Except.bind, *]
  · simp [*]

theorem mapError_eq_ok {ε' : Type} {f : ε → ε'} {x : Except ε α} {a : α} : x.mapError f = .ok a ↔ x = .ok a := by
  cases x <;> simp [Except.mapError]

theorem check_eq_ok {c : Prop} [Decidable c] {e : ε} :
    (if c then MonadExcept.throw e else pure () : Except ε Unit) = .ok () ↔ ¬ c := by
  split
  · simp [throw, throwThe, MonadExceptOf.throw, *]
  · simp [pure, Except.pure, *]

end Except

/-- `?` on a computation with a different error type, which leaves the state alone. -/
def liftResult {ε ε' σ α : Type} (wrap : ε' → ε) : Except ε' α → EStateM ε σ α
  | .ok a => pure a
  | .error e => throw (wrap e)

def mapErr {ε ε' σ α : Type} (wrap : ε' → ε) (x : EStateM ε' σ α) : EStateM ε σ α := fun s =>
  match x s with
  | .ok a s' => .ok a s'
  | .error e s' => .error (wrap e) s'

@[simp] theorem Runs.liftResult_iff {ε ε' σ α : Type} {wrap : ε' → ε} {r : Except ε' α}
    {s s' : σ} {a : α} : Runs (liftResult wrap r) s a s' ↔ r = .ok a ∧ s = s' := by
  cases r <;> simp [liftResult]

theorem Runs.lift {ε ε' σ α β : Type} {wrap : ε' → ε} {r : Except ε' α} {f : α → EStateM ε σ β} {s s' : σ} {b : β}
    (h : Runs (liftResult wrap r >>= f) s b s') : ∃ a, r = .ok a ∧ Runs (f a) s b s' := by
  obtain ⟨a, t, hlift, hf⟩ := bind_iff.1 h
  obtain ⟨hr, rfl⟩ := liftResult_iff.1 hlift
  exact ⟨a, hr, hf⟩

@[simp] theorem Runs.mapErr_iff {ε ε' σ α : Type} {wrap : ε' → ε} {x : EStateM ε' σ α}
    {s s' : σ} {a : α} : Runs (mapErr wrap x) s a s' ↔ Runs x s a s' := by
  simp only [Runs, mapErr]
  cases x s <;> simp

/-! ## Weakest preconditions -/

/-- `x`, started in `s`, satisfies `Q` if it returns and `E` if it throws. -/
def wp {ε σ α : Type} (x : EStateM ε σ α) (Q : α → σ → Prop) (E : ε → σ → Prop) (s : σ) : Prop :=
  match x s with
  | .ok a s' => Q a s'
  | .error e s' => E e s'

namespace wp

variable {ε ε' σ α β : Type} {Q Q' : α → σ → Prop} {E E' : ε → σ → Prop} {s s' : σ}

@[simp] theorem pure_iff {a : α} : wp (pure a) Q E s ↔ Q a s := Iff.rfl

@[simp] theorem throw_iff {e : ε} : wp (throw e) Q E s ↔ E e s := Iff.rfl

@[simp] theorem get_iff {Q : σ → σ → Prop} : wp get Q E s ↔ Q s s := Iff.rfl

@[simp] theorem modify_iff {f : σ → σ} {Q : PUnit → σ → Prop} : wp (modify f) Q E s ↔ Q ⟨⟩ (f s) := Iff.rfl

@[simp] theorem bind_iff {x : EStateM ε σ β} {f : β → EStateM ε σ α} :
    wp (x >>= f) Q E s ↔ wp x (fun b => wp (f b) Q E) E s := by
  simp only [wp, bind, EStateM.bind]
  cases x s <;> rfl

@[simp] theorem map_iff {f : β → α} {x : EStateM ε σ β} : wp (f <$> x) Q E s ↔ wp x (fun b => Q (f b)) E s := by
  simp only [wp, Functor.map, EStateM.map]
  cases x s <;> rfl

variable {x : EStateM ε σ α}

@[simp] theorem ite_iff {c : Prop} [Decidable c] {y : EStateM ε σ α} :
    wp (if c then x else y) Q E s ↔ (c → wp x Q E s) ∧ (¬ c → wp y Q E s) := by
  split <;> simp_all

@[simp] theorem liftResult_iff {wrap : ε' → ε} {r : Except ε' α} :
    wp (liftResult wrap r) Q E s ↔ (∀ a, r = .ok a → Q a s) ∧ (∀ e, r = .error e → E (wrap e) s) := by
  cases r <;> simp [liftResult]

@[simp] theorem mapErr_iff {wrap : ε' → ε} {x : EStateM ε' σ α} :
    wp (mapErr wrap x) Q E s ↔ wp x Q (fun e => E (wrap e)) s := by
  simp only [wp, mapErr]
  cases x s <;> rfl

theorem mono (h : wp x Q E s) (hQ : ∀ a s', Q a s' → Q' a s') (hE : ∀ e s', E e s' → E' e s') : wp x Q' E' s := by
  unfold wp at *
  split at h
  · exact hQ _ _ h
  · exact hE _ _ h

theorem and (h : wp x Q E s) (h' : wp x Q' E' s) :
    wp x (fun a s' => Q a s' ∧ Q' a s') (fun e s' => E e s' ∧ E' e s') s := by
  unfold wp at *
  split at h
  · exact ⟨h, by simpa [*] using h'⟩
  · exact ⟨h, by simpa [*] using h'⟩

theorem iff_runs : wp x Q (fun _ _ => True) s ↔ ∀ a s', Runs x s a s' → Q a s' := by
  unfold wp Runs
  cases x s <;> simp

theorem exists_runs (h : wp x (fun _ _ => True) (fun _ _ => False) s) : ∃ a s', Runs x s a s' := by
  unfold wp at h
  unfold Runs
  cases hx : x s with
  | ok a s' => exact ⟨a, s', rfl⟩
  | error e s' => simp [hx] at h

end wp

/-! ## Programs that move the state along a preorder -/

/-- Every successful run of `x` moves the state along `R`. -/
def Preserves {ε σ α : Type} (R : σ → σ → Prop) (x : EStateM ε σ α) : Prop :=
  ∀ s, wp x (fun _ s' => R s s') (fun _ _ => True) s

namespace Preserves

variable {ε ε' σ α β : Type} {R R' : σ → σ → Prop}

theorem run {x : EStateM ε σ α} (h : Preserves R x) {s s' : σ} {a : α} (hr : Runs x s a s') : R s s' :=
  wp.iff_runs.1 (h s) a s' hr

theorem bind [IsTrans σ R] {x : EStateM ε σ α} {f : α → EStateM ε σ β} (hx : Preserves R x)
    (hf : ∀ a, Preserves R (f a)) : Preserves R (x >>= f) := by
  intro s
  rw [wp.bind_iff]
  refine (hx s).mono (fun a t h => ?_) fun _ _ => id
  exact (hf a t).mono (fun _ _ h' => IsTrans.trans _ _ _ h h') fun _ _ => id

theorem throw {e : ε} : Preserves R (throw e : EStateM ε σ α) := fun _ => trivial

theorem ite {c : Prop} [Decidable c] {x y : EStateM ε σ α} (hx : Preserves R x) (hy : Preserves R y) :
    Preserves R (if c then x else y) := by
  split
  · exact hx
  · exact hy

theorem guard {c : Prop} [Decidable c] {e : ε} {k : PUnit → EStateM ε σ α} (h : Preserves R (k ⟨⟩)) :
    Preserves R (if c then MonadExcept.throw e >>= k else k ⟨⟩) := .ite (fun _ => trivial) h

theorem mapErr {wrap : ε' → ε} {x : EStateM ε' σ α} (h : Preserves R x) : Preserves R (mapErr wrap x) :=
  fun s => wp.mapErr_iff.2 (h s)

end Preserves
