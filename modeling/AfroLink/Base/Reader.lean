import Mathlib

/-!
# Readers

A reader takes a value off the front of a list or refuses. `Reads p x a`: whatever follows `x`, the reader `p` takes
exactly `x` and returns `a`; `Refuses p x e`: it fails with `e`. Where every value has a list its reader takes, no two values share one.
-/

/-- Takes an `α` off the front of a list of `τ`, or fails with an `ε`. -/
abbrev Reader (τ ε α : Type) := StateT (List τ) (Except ε) α

def Reads {τ ε α : Type} (p : Reader τ ε α) (x : List τ) (a : α) : Prop := ∀ rest, p.run (x ++ rest) = .ok (a, rest)

namespace Reads

variable {τ ε α β : Type} {p : Reader τ ε α} {f : α → Reader τ ε β} {x y : List τ} {a a' : α} {b : β}

theorem pure (a : α) : Reads (Pure.pure a : Reader τ ε α) [] a := fun _ => rfl

theorem bind (hp : Reads p x a) (hf : Reads (f a) y b) : Reads (p >>= f) (x ++ y) b := by
  intro rest
  rw [StateT.run_bind, List.append_assoc, hp]
  exact hf rest

theorem cons {t : τ} (hp : Reads p [t] a) (hf : Reads (f a) y b) : Reads (p >>= f) (t :: y) b := bind hp hf

theorem last {g : α → β} (hp : Reads p x a) : Reads (p >>= fun a => Pure.pure (g a)) x (g a) := by
  have h : Reads (p >>= fun a => Pure.pure (g a)) (x ++ []) (g a) := hp.bind (pure (g a))
  rwa [List.append_nil] at h

theorem cast (h : Reads p x a) (hxy : x = y) : Reads p y a := hxy ▸ h

theorem guard {c : Prop} [Decidable c] {e : ε} {k : PUnit → Reader τ ε α} (hc : ¬ c) (h : Reads (k ⟨⟩) x a) :
    Reads (if c then throw e >>= k else k ⟨⟩) x a := by
  rwa [if_neg hc]

theorem unique (h : Reads p x a) (h' : Reads p x a') : a = a' := by
  have := (h []).symm.trans (h' [])
  simp only [Except.ok.injEq, Prod.mk.injEq, and_true] at this
  exact this

theorem append_inj {rest rest' : List τ} (h : Reads p x a) (h' : Reads p y a') (heq : x ++ rest = y ++ rest') :
    a = a' ∧ rest = rest' := by
  have hrun := (h rest).symm.trans (heq ▸ h' rest')
  simpa only [Except.ok.injEq, Prod.mk.injEq] using hrun

theorem run (h : Reads p x a) : p.run x = .ok (a, []) := by
  have := h []
  rwa [List.append_nil] at this

end Reads

def Refuses {τ ε α : Type} (p : Reader τ ε α) (x : List τ) (e : ε) : Prop := ∀ rest, p.run (x ++ rest) = .error e

namespace Refuses

variable {τ ε α β : Type} {p : Reader τ ε α} {f : α → Reader τ ε β} {x y : List τ} {a : α} {e : ε}

theorem throw (e : ε) : Refuses (MonadExcept.throw e : Reader τ ε α) x e := fun _ => rfl

theorem bind (h : Refuses p x e) : Refuses (p >>= f) x e := by
  intro rest
  rw [StateT.run_bind, h]
  rfl

theorem after (hp : Reads p x a) (hf : Refuses (f a) y e) : Refuses (p >>= f) (x ++ y) e := by
  intro rest
  rw [StateT.run_bind, List.append_assoc, hp]
  exact hf rest

theorem guard {c : Prop} [Decidable c] {k : PUnit → Reader τ ε α} (hc : c) :
    Refuses (if c then MonadExcept.throw e >>= k else k ⟨⟩) x e := by
  rw [if_pos hc]
  exact (throw e).bind

end Refuses

def readMany {τ ε α : Type} (p : Reader τ ε α) : ℕ → Reader τ ε (List α)
  | 0 => pure []
  | n + 1 => do
    let a ← p
    let rest ← readMany p n
    return a :: rest

theorem Reads.many {τ ε α : Type} {p : Reader τ ε α} {enc : α → List τ} {l : List α}
    (h : ∀ a ∈ l, Reads p (enc a) a) : Reads (readMany p l.length) (l.flatMap enc) l := by
  induction l with
  | nil => exact .pure []
  | cons a rest ih =>
    rw [List.flatMap_cons]
    exact (h a (.head _)).bind (ih fun b hb => h b (.tail _ hb)).last
