import AfroLink.Consensus.Round

/-!
# The signing record

What a validator has put its name to. A signature is released only after the record has moved strictly past
every earlier claim, and the record outlives the process.
-/

namespace AfroLink

/-- A height, round and step, in the order a validator passes through them. -/
structure SignPoint where
  height : Height
  round : Round
  step : Step
deriving DecidableEq

namespace SignPoint

def Before (p q : SignPoint) : Prop :=
  p.height < q.height ∨ p.height = q.height ∧ (p.round < q.round ∨ p.round = q.round ∧ p.step.rank < q.step.rank)

instance (p q : SignPoint) : Decidable (p.Before q) := by unfold Before; infer_instance

theorem Before.trans {p q r : SignPoint} (h : p.Before q) (h' : q.Before r) : p.Before r := by
  unfold Before at *
  simp only [Fin.lt_def, Fin.ext_iff] at *
  omega

theorem Before.irrefl (p : SignPoint) : ¬ p.Before p := by
  simp [Before]

end SignPoint

inductive SignRefusal where
  | alreadySigned (next last : SignPoint)
  | notDurable (reason : String)
deriving DecidableEq

def checkAfter (last : Option SignPoint) (next : SignPoint) : Except SignRefusal Unit :=
  match last with
  | none => .ok ()
  | some last => if last.Before next then .ok () else .error (.alreadySigned next last)

/-- The last claim, and what writing the claims to come will answer: `disk k` is the failure, if any, of the
`k`-th write from now. The record kept in memory is the one whose writes never fail. -/
structure SignRecord where
  last : Option SignPoint
  disk : Nat → Option String

def SignRecord.inMemory (last : Option SignPoint) : SignRecord := ⟨last, fun _ => none⟩

def SignRecord.claim (r : SignRecord) (p : SignPoint) : SignRecord × Except SignRefusal Unit :=
  match checkAfter r.last p with
  | .error e => (r, .error e)
  | .ok _ =>
    let disk := fun k => r.disk (k + 1)
    match r.disk 0 with
    | some reason => (⟨r.last, disk⟩, .error (.notDurable reason))
    | none => (⟨some p, disk⟩, .ok ())

def SignRecord.Past (r : SignRecord) (p : SignPoint) : Prop := ∀ q ∈ r.last, q.Before p

/-- What a claim can do: move the record to a later point, or refuse and leave it where it was. -/
theorem SignRecord.claim_cases (r : SignRecord) (p : SignPoint) :
    (∃ r', r.claim p = (r', .ok ()) ∧ r.Past p ∧ r'.last = some p) ∨
    (∃ r' e, r.claim p = (r', .error e) ∧ r'.last = r.last) := by
  unfold claim checkAfter Past
  cases hl : r.last with
  | none =>
    cases hd : r.disk 0 with
    | none => exact .inl ⟨_, rfl, by simp, rfl⟩
    | some reason => exact .inr ⟨_, _, rfl, rfl⟩
  | some last =>
    by_cases hb : last.Before p
    · cases hd : r.disk 0 with
      | none =>
        refine .inl ⟨⟨some p, fun k => r.disk (k + 1)⟩, ?_, by simpa using hb, rfl⟩
        simp [hb]
      | some reason =>
        refine .inr ⟨⟨some last, fun k => r.disk (k + 1)⟩, .notDurable reason, ?_, rfl⟩
        simp [hb]
    · exact .inr ⟨r, .alreadySigned p last, by simp [hb], hl⟩

def SignRecord.Durable (r : SignRecord) : Prop := ∀ k, r.disk k = none

theorem SignRecord.Durable.claim {r : SignRecord} (h : r.Durable) (p : SignPoint) :
    (r.claim p).1.Durable ∧ ∃ q, (r.claim p).1.last = some q ∧ ¬ q.Before p := by
  unfold SignRecord.claim checkAfter
  cases hl : r.last with
  | none =>
    simp only [h 0]
    exact ⟨fun k => h (k + 1), p, rfl, SignPoint.Before.irrefl p⟩
  | some last =>
    simp only
    by_cases hb : last.Before p
    · simp only [hb, if_true, h 0]
      exact ⟨fun k => h (k + 1), p, rfl, SignPoint.Before.irrefl p⟩
    · simp only [hb, if_false]
      exact ⟨h, last, hl, hb⟩

end AfroLink
