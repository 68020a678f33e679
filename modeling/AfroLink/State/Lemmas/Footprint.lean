import AfroLink.State.Store

/-!
# What a program writes

`Keeps F C P x s`: started in `s`, the program `x` changes no cell outside `F`, keeps a sound store sound if `C`
holds and a whole one whole, returns what `P` says, and complains of corrupt state only where the store is not sound.
-/

namespace AfroLink

/-! ## Sound stores -/

/-- The decoder accepts the record, and the approvals of a group's open proposal are its members'. -/
structure Account.Sound (a : Account) : Prop where
  decodes : a.decodeError = none
  approvals : ∀ g p, a.asGroup = some g → g.pending = some p → ∀ x ∈ p.approvals, g.isMember x = true

/-- What every record the executor writes under `k` satisfies. -/
def StoreKey.Sound : (k : StoreKey) → k.Value → Prop
  | account _, v => Account.Sound v
  | k, v => k.decodeError v = none

theorem StoreKey.Sound.decodes {k : StoreKey} {v : k.Value} (h : k.Sound v) : k.decodeError v = none := by
  cases k with
  | account => exact Account.Sound.decodes h
  | _ => exact h

def Store.SoundAt (s : Store) (k : StoreKey) : Prop := ∀ c, s k = some c → ∃ v, c = .value v ∧ k.Sound v

def Store.Sound (s : Store) : Prop := ∀ k, s.SoundAt k

namespace Store

variable {s : Store} {k : StoreKey}

theorem SoundAt.getDecoded (h : s.SoundAt k) : ∃ v, s.getDecoded k = .ok v ∧ ∀ r, v = some r → k.Sound r := by
  cases hk : s k with
  | none => exact ⟨none, getDecoded_eq_none.2 hk, nofun⟩
  | some c =>
    obtain ⟨v, rfl, hv⟩ := h c hk
    refine ⟨some v, getDecoded_eq_some.2 ⟨hk, hv.decodes⟩, ?_⟩
    rintro r ⟨⟩
    exact hv

theorem Sound.of_read {v : k.Value} (h : s.Sound) (hv : s.getDecoded k = .ok (some v)) : k.Sound v := by
  obtain ⟨w, hw, hs⟩ := (h k).getDecoded
  cases hw.symm.trans hv
  exact hs v rfl

theorem not_sound_of_error {e : StateError} (h : s.getDecoded k = .error e) : ¬ s.Sound := by
  intro hs
  obtain ⟨v, hv, -⟩ := (hs k).getDecoded
  cases hv.symm.trans h

theorem decodeError_of_read {v : k.Value} (h : s.getDecoded k = .ok (some v)) : k.decodeError v = none :=
  (getDecoded_eq_some.1 h).2

theorem Sound.set {v : k.Value} (h : s.Sound) (hv : k.Sound v) : (s.set k v).Sound := by
  intro k' c hc
  by_cases hk : k' = k
  · subst hk
    rw [set_self] at hc
    cases hc
    exact ⟨v, rfl, hv⟩
  · rw [set_of_ne hk] at hc
    exact h k' c hc

theorem Sound.delete (h : s.Sound) : (s.delete k).Sound := by
  intro k' c hc
  by_cases hk : k' = k
  · subst hk
    rw [delete_self] at hc
    cases hc
  · rw [delete_of_ne hk] at hc
    exact h k' c hc

/-! ## Whole stores -/

/-- No cell holds bytes that were not written as a record. Unlike a sound record, a record may still be one its own
decoder refuses. -/
def Whole (s : Store) : Prop := ∀ k c, s k = some c → ∃ v, c = .value v

theorem empty_whole : Store.empty.Whole := nofun

theorem Whole.set {v : k.Value} (h : s.Whole) : (s.set k v).Whole := by
  intro k' c hc
  by_cases hk : k' = k
  · subst hk
    rw [set_self] at hc
    cases hc
    exact ⟨v, rfl⟩
  · rw [set_of_ne hk] at hc
    exact h k' c hc

theorem Whole.delete (h : s.Whole) : (s.delete k).Whole := by
  intro k' c hc
  by_cases hk : k' = k
  · subst hk
    rw [delete_self] at hc
    cases hc
  · rw [delete_of_ne hk] at hc
    exact h k' c hc

theorem Whole.getDecoded (h : s.Whole) (hk : ∀ v, k.decodeError v = none) :
    ∃ v, s.getDecoded k = .ok v ∧ s k = v.map .value := by
  cases hc : s k with
  | none => exact ⟨none, getDecoded_eq_none.2 hc, rfl⟩
  | some c =>
    obtain ⟨v, rfl⟩ := h k c hc
    exact ⟨some v, getDecoded_eq_some.2 ⟨hc, hk v⟩, rfl⟩

theorem Whole.readable (h : s.Whole) :
    (∃ v, s.getDecoded k = .ok v) ↔ ∀ v, s k = some (.value v) → k.decodeError v = none := by
  constructor
  · rintro ⟨w, hw⟩ v hv
    cases w with
    | none => simp [getDecoded_eq_none.1 hw] at hv
    | some w =>
      obtain ⟨hcell, hdecodes⟩ := getDecoded_eq_some.1 hw
      cases hcell.symm.trans hv
      exact hdecodes
  · intro hk
    cases hc : s k with
    | none => exact ⟨none, getDecoded_eq_none.2 hc⟩
    | some c =>
      obtain ⟨v, rfl⟩ := h k c hc
      exact ⟨some v, getDecoded_eq_some.2 ⟨hc, hk v hc⟩⟩

end Store

/-! ## Writes -/

/-- Only cells in `F` differ, a whole store stays whole and, provided `C`, a sound store stays sound. -/
structure Writes (F : StoreKey → Prop) (C : Prop) (s s' : Store) : Prop where
  frame : ∀ k, ¬ F k → s' k = s k
  sound : C → s.Sound → s'.Sound
  whole : s.Whole → s'.Whole

namespace Writes

variable {F G : StoreKey → Prop} {C : Prop} {s s' s'' : Store} {k : StoreKey}

theorem refl (s : Store) : Writes F C s s := ⟨fun _ _ => rfl, fun _ => id, id⟩

theorem trans (h : Writes F C s s') (h' : Writes F C s' s'') : Writes F C s s'' :=
  ⟨fun k hk => (h'.frame k hk).trans (h.frame k hk), fun hc hs => h'.sound hc (h.sound hc hs),
    fun hs => h'.whole (h.whole hs)⟩

theorem mono (h : Writes F C s s') (hFG : ∀ k, F k → G k) : Writes G C s s' :=
  ⟨fun k hk => h.frame k fun hF => hk (hFG k hF), h.sound, h.whole⟩

theorem eq_of_bot (h : Writes ⊥ C s s') : s' = s := Store.ext fun k => h.frame k id

theorem imp {D : Prop} (h : Writes F C s s') (hD : D → C) : Writes F D s s' :=
  ⟨h.frame, fun hd => h.sound (hD hd), h.whole⟩

theorem set {v : k.Value} (hk : F k) (hv : C → s.Sound → k.Sound v) : Writes F C s (s.set k v) :=
  ⟨fun _ hk' => Store.set_of_ne fun h => hk' (h ▸ hk), fun hc hs => hs.set (hv hc hs), Store.Whole.set⟩

theorem delete (hk : F k) : Writes F C s (s.delete k) :=
  ⟨fun _ hk' => Store.delete_of_ne fun h => hk' (h ▸ hk), fun _ hs => hs.delete, Store.Whole.delete⟩

end Writes

/-! ## Programs -/

/-- Which errors report that a record of the state could not be read. -/
class StateFault (ε : Type) where
  isFault : ε → Bool

export StateFault (isFault)

def Honest {ε : Type} [StateFault ε] (e : ε) (s : Store) : Prop := isFault e = true → ¬ s.Sound

theorem Honest.of_not_fault {ε : Type} [StateFault ε] {e : ε} {s : Store} (h : isFault e = false) : Honest e s :=
  fun h' => absurd (h.symm.trans h') Bool.false_ne_true

/-- Started in `s`, `x` writes only in `F`, keeps a sound store sound provided `C`, and returns what `P` says; a
complaint of corrupt state is honest. -/
def Keeps {ε α : Type} [StateFault ε] (F : StoreKey → Prop) (C : Prop) (P : α → Prop) (x : StoreM ε α) (s : Store) :
    Prop :=
  wp x (fun a s' => Writes F C s s' ∧ P a) (fun e s' => Writes F C s s' ∧ Honest e s') s

namespace Keeps

variable {ε ε' α β : Type} [StateFault ε] [StateFault ε'] {F G : StoreKey → Prop} {C : Prop} {P P' : α → Prop} {Q : β → Prop}
  {s : Store}

theorem pure {a : α} (h : P a) : Keeps F C P (Pure.pure a : StoreM ε α) s := ⟨.refl s, h⟩

theorem throw {e : ε} (h : isFault e = false) : Keeps F C P (throw e : StoreM ε α) s := ⟨.refl s, .of_not_fault h⟩

theorem state : Keeps F C (fun t => t = s) (MonadState.get : StoreM ε Store) s := ⟨.refl s, rfl⟩

variable {k : StoreKey} {f : α → StoreM ε β} {x : StoreM ε α}

theorem get {wrap : StateError → ε} : Keeps F C (fun v => s.getDecoded k = .ok v) (getDecoded wrap k) s := by
  unfold Keeps
  rw [wp_getDecoded]
  exact ⟨fun v hv => ⟨.refl s, hv⟩, fun e he => ⟨.refl s, fun _ => Store.not_sound_of_error he⟩⟩

theorem set {v : k.Value} (hk : F k) (hv : C → s.Sound → k.Sound v) :
    Keeps F C ⊤ (setEncoded k v : StoreM ε Unit) s := ⟨.set hk hv, trivial⟩

theorem delete (hk : F k) : Keeps F C ⊤ (deleteKey k : StoreM ε Unit) s := ⟨.delete hk, trivial⟩

theorem bind_sound (hx : Keeps F C P x s)
    (hf : ∀ a s', Writes F C s s' → P a → Keeps F (C ∧ s.Sound) Q (f a) s') : Keeps F C Q (x >>= f) s := by
  unfold Keeps at *
  rw [wp.bind_iff]
  refine hx.mono (fun a s' h => ?_) fun _ _ => id
  have hseq : ∀ t, Writes F (C ∧ s.Sound) s' t → Writes F C s t := fun t h' =>
    ⟨fun k hk => (h'.frame k hk).trans (h.1.frame k hk), fun hc hs => h'.sound ⟨hc, hs⟩ (h.1.sound hc hs),
      fun hs => h'.whole (h.1.whole hs)⟩
  exact (hf a s' h.1 h.2).mono (fun _ t h' => ⟨hseq t h'.1, h'.2⟩) fun _ t h' => ⟨hseq t h'.1, h'.2⟩

theorem imp {D : Prop} (h : Keeps F C P x s) (hD : D → C) : Keeps F D P x s :=
  wp.mono h (fun _ _ h' => ⟨h'.1.imp hD, h'.2⟩) fun _ _ h' => ⟨h'.1.imp hD, h'.2⟩

theorem bind (hx : Keeps F C P x s)
    (hf : ∀ a s', Writes F C s s' → P a → Keeps F C Q (f a) s') : Keeps F C Q (x >>= f) s :=
  .bind_sound hx fun a s' h ha => (hf a s' h ha).imp And.left

theorem read (hx : Keeps ⊥ C P x s) (hf : ∀ a, P a → Keeps F C Q (f a) s) : Keeps F C Q (x >>= f) s := by
  unfold Keeps at *
  rw [wp.bind_iff]
  refine hx.mono (fun a s' h => ?_) fun _ s' h => ?_
  · obtain rfl := h.1.eq_of_bot
    exact hf a h.2
  · obtain rfl := h.1.eq_of_bot
    exact ⟨.refl s', h.2⟩

theorem mono (h : Keeps F C P x s) (hFG : ∀ k, F k → G k) (hP : ∀ a, P a → P' a) : Keeps G C P' x s :=
  wp.mono h (fun a _ h' => ⟨h'.1.mono hFG, hP a h'.2⟩) fun _ _ h' => ⟨h'.1.mono hFG, h'.2⟩

theorem ite {c : Prop} [Decidable c] {y : StoreM ε α} (hx : c → Keeps F C P x s) (hy : ¬ c → Keeps F C P y s) :
    Keeps F C P (if c then x else y) s := by
  split
  · exact hx ‹_›
  · exact hy ‹_›

theorem guard {c : Prop} [Decidable c] {e : ε} {k : PUnit → StoreM ε α} (he : isFault e = false)
    (h : ¬ c → Keeps F C P (k ⟨⟩) s) : Keeps F C P (if c then MonadExcept.throw e >>= k else k ⟨⟩) s :=
  .ite (fun _ => ⟨.refl s, .of_not_fault he⟩) h

omit [StateFault ε'] in
theorem result {wrap : ε' → ε} {r : Except ε' α} (hw : ∀ e, r = .error e → isFault (wrap e) = false) :
    Keeps F C (fun a => r = .ok a) (liftResult wrap r) s := by
  cases r with
  | ok a => exact ⟨.refl s, rfl⟩
  | error e => exact ⟨.refl s, .of_not_fault (hw e rfl)⟩

theorem mapErr {wrap : ε' → ε} {x : StoreM ε' α} (hw : ∀ e, isFault (wrap e) = isFault e) (hx : Keeps F C P x s) :
    Keeps F C P (mapErr wrap x) s := by
  unfold Keeps
  rw [wp.mapErr_iff]
  exact wp.mono hx (fun _ _ => id) fun e s' h => ⟨h.1, fun hf => h.2 ((hw e).symm.trans hf)⟩

theorem run (h : Keeps F C P x s) {a : α} {s' : Store} (hr : Runs x s a s') : Writes F C s s' ∧ P a :=
  wp.iff_runs.1 (wp.mono h (fun _ _ => id) fun _ _ _ => trivial) a s' hr

theorem frame (h : Keeps F False P x s) {a : α} {s' : Store} (hr : Runs x s a s') (hk : ¬ F k) : s' k = s k :=
  (h.run hr).1.frame k hk

theorem run_read (h : Keeps ⊥ False P x s) {b : β} {s' : Store}
    (hr : Runs (x >>= f) s b s') : ∃ a, P a ∧ Runs (f a) s b s' := by
  obtain ⟨a, s₁, hx, hf⟩ := Runs.bind_iff.1 hr
  obtain ⟨hw, ha⟩ := h.run hx
  obtain rfl := hw.eq_of_bot
  exact ⟨a, ha, hf⟩

end Keeps

end AfroLink
