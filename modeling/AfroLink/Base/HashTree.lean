import Mathlib

/-!
# Trees of hashes

A binary tree with data at its tips, hashed from the tips up. A list of siblings is climbed from a hash to a root. It
leads to the root of a tree only by following the tree, unless two different things that were hashed hash alike.
-/

inductive HashTree (α : Type) where
  | tip (a : α)
  | fork (left right : HashTree α)
deriving DecidableEq, Repr

namespace HashTree

variable {α η : Type}

def tips : HashTree α → List α
  | tip a => [a]
  | fork l r => l.tips ++ r.tips

/-- The subtree a path leads to, `true` being right; none if the path goes on below a tip. -/
def descend : HashTree α → List Bool → Option (HashTree α)
  | t, [] => some t
  | tip _, _ :: _ => none
  | fork l r, right :: path => (bif right then r else l).descend path

variable (hash : α → η) (join : η → η → η)

def digest : HashTree α → η
  | tip a => hash a
  | fork l r => join l.digest r.digest

def joins : HashTree α → List (η × η)
  | tip _ => []
  | fork l r => (l.digest hash join, r.digest hash join) :: (l.joins ++ r.joins)

/-- The siblings along a path, from the root down, as far as it goes. -/
def siblings : HashTree α → List Bool → List (Bool × η)
  | fork l r, right :: path =>
    (right, (bif right then l else r).digest hash join) :: (bif right then r else l).siblings path
  | _, _ => []

end HashTree

section

variable {η : Type} (join : η → η → η)

/-- The pair a hash makes with its sibling; the hash is on the side the step says. -/
def beside (step : Bool × η) (x : η) : η × η := bif step.1 then (step.2, x) else (x, step.2)

/-- From a hash at the end of a path to the root, the siblings being given from the root down. -/
def climb : List (Bool × η) → η → η
  | [], x => x
  | step :: path, x => join (beside step (climb path x)).1 (beside step (climb path x)).2

def climbed : List (Bool × η) → η → List (η × η)
  | [], _ => []
  | step :: path, x => beside step (climb join path x) :: climbed path x

theorem climb_append (path rest : List (Bool × η)) (x : η) :
    climb join (path ++ rest) x = climb join path (climb join rest x) := by
  induction path with
  | nil => rfl
  | cons step path ih => simp only [List.cons_append, climb, ih]

end

/-- From a root down a path to a hash, `true` being right, where every fork on the way is one of the pairs. -/
inductive Leads {η : Type} (join : η → η → η) (pairs : Set (η × η)) : η → List Bool → η → Prop
  | here {x : η} : Leads join pairs x [] x
  | left {a b x : η} {path : List Bool} (pair : (a, b) ∈ pairs) (below : Leads join pairs a path x) :
      Leads join pairs (join a b) (false :: path) x
  | right {a b x : η} {path : List Bool} (pair : (a, b) ∈ pairs) (below : Leads join pairs b path x) :
      Leads join pairs (join a b) (true :: path) x

namespace Leads

variable {η : Type} {join : η → η → η} {pairs : Set (η × η)} {a b r x y : η}

theorem of_climb {path : List (Bool × η)} (h : ∀ q ∈ climbed join path x, q ∈ pairs) :
    Leads join pairs (climb join path x) (path.map Prod.fst) x := by
  induction path with
  | nil => exact .here
  | cons step path ih =>
    have hpair := h _ (.head _)
    have hbelow := ih fun q hq => h q (.tail _ hq)
    obtain ⟨side, sibling⟩ := step
    cases side with
    | false => exact .left hpair hbelow
    | true => exact .right hpair hbelow

section

variable (hinj : Set.InjOn (fun p => join p.1 p.2) pairs)
include hinj

theorem below_left {path : List Bool} (hpair : (a, b) ∈ pairs) (h : Leads join pairs (join a b) (false :: path) x) :
    Leads join pairs a path x := by
  generalize hroot : join a b = r at h
  cases h with
  | left hpair' hbelow =>
    cases hinj hpair hpair' hroot
    exact hbelow

theorem below_right {path : List Bool} (hpair : (a, b) ∈ pairs) (h : Leads join pairs (join a b) (true :: path) x) :
    Leads join pairs b path x := by
  generalize hroot : join a b = r at h
  cases h with
  | right hpair' hbelow =>
    cases hinj hpair hpair' hroot
    exact hbelow

theorem unique {path : List Bool} (hx : Leads join pairs r path x) (hy : Leads join pairs r path y) : x = y := by
  induction hx with
  | here =>
    cases hy
    rfl
  | left hpair _ ih => exact ih (below_left hinj hpair hy)
  | right hpair _ ih => exact ih (below_right hinj hpair hy)

end

end Leads

namespace HashTree

variable {α η : Type} {hash : α → η} {join : η → η → η} {t t' : HashTree α} {path : List (Bool × η)} {x : η}

variable {l r : HashTree α} {dirs : List Bool}

theorem joins_left : l.joins hash join ⊆ (fork l r).joins hash join := fun _ h =>
  List.mem_cons_of_mem _ (List.mem_append_left _ h)

theorem joins_right : r.joins hash join ⊆ (fork l r).joins hash join := fun _ h =>
  List.mem_cons_of_mem _ (List.mem_append_right _ h)

theorem climb_siblings (h : t.descend dirs = some t') :
    climb join (t.siblings hash join dirs) (t'.digest hash join) = t.digest hash join ∧
      (t.siblings hash join dirs).map Prod.fst = dirs := by
  induction t generalizing dirs with
  | tip a =>
    cases dirs with
    | nil =>
      cases h
      exact ⟨rfl, rfl⟩
    | cons right rest => cases h
  | fork l r ihl ihr =>
    cases dirs with
    | nil =>
      cases h
      exact ⟨rfl, rfl⟩
    | cons right rest =>
      cases right with
      | false =>
        obtain ⟨hclimb, hdirs⟩ := ihl h
        exact ⟨congrArg (join · _) hclimb, congrArg (false :: ·) hdirs⟩
      | true =>
        obtain ⟨hclimb, hdirs⟩ := ihr h
        exact ⟨congrArg (join _) hclimb, congrArg (true :: ·) hdirs⟩

/-- No pair joined in the tree and no pair joined on the way up share a hash without being the same. -/
def Unmixed (hash : α → η) (join : η → η → η) (t : HashTree α) (pairs : List (η × η)) : Prop :=
  ∀ p ∈ t.joins hash join, ∀ q ∈ pairs, join p.1 p.2 = join q.1 q.2 → p = q

/-- Climbing one step to the root of a fork, one is on the side the step says, beside the hash of the other side. -/
theorem climb_fork {step : Bool × η} (hmix : Unmixed hash join (fork l r) (climbed join (step :: path) x))
    (h : climb join (step :: path) x = (fork l r).digest hash join) :
    climb join path x = (bif step.1 then r else l).digest hash join ∧
      Unmixed hash join (bif step.1 then r else l) (climbed join path x) := by
  have hpair := hmix _ (.head _) _ (.head _) h.symm
  have hsub : climbed join path x ⊆ climbed join (step :: path) x := List.subset_cons_self _ _
  obtain ⟨right, sibling⟩ := step
  cases right with
  | false => exact ⟨(congrArg Prod.fst hpair).symm, fun p hp q hq => hmix p (joins_left hp) q (hsub hq)⟩
  | true => exact ⟨(congrArg Prod.snd hpair).symm, fun p hp q hq => hmix p (joins_right hp) q (hsub hq)⟩

/-- Where a path exists in the tree, climbing it to the root starts from what the tree has there. -/
theorem digest_of_climb (hmix : Unmixed hash join t (climbed join path x)) (h : climb join path x = t.digest hash join)
    (hpath : t.descend (path.map Prod.fst) = some t') : t'.digest hash join = x := by
  induction path generalizing t with
  | nil =>
    cases hpath
    exact h.symm
  | cons step path ih =>
    cases t with
    | tip a => cases hpath
    | fork l r =>
      obtain ⟨hclimb, hmix⟩ := climb_fork hmix h
      exact ih hmix hclimb hpath

/-- A climb that reaches the root follows the tree, unless the hash of a tip is the hash of a pair. -/
theorem descend_of_climb (hmix : Unmixed hash join t (climbed join path x)) (h : climb join path x = t.digest hash join)
    (htips : ∀ a ∈ t.tips, ∀ q ∈ climbed join path x, hash a ≠ join q.1 q.2) :
    ∃ t', t.descend (path.map Prod.fst) = some t' ∧ t'.digest hash join = x := by
  induction path generalizing t with
  | nil => exact ⟨t, by cases t <;> rfl, h.symm⟩
  | cons step path ih =>
    cases t with
    | tip a => exact absurd h.symm (htips a (.head _) _ (.head _))
    | fork l r =>
      obtain ⟨hclimb, hmix⟩ := climb_fork hmix h
      refine ih hmix hclimb fun a ha q hq => htips a ?_ q (.tail _ hq)
      obtain ⟨right, sibling⟩ := step
      cases right with
      | false => exact List.mem_append_left _ ha
      | true => exact List.mem_append_right _ ha

theorem tips_of_descend (h : t.descend dirs = some t') : t'.tips ⊆ t.tips := by
  induction dirs generalizing t with
  | nil =>
    cases t <;> cases h <;> exact List.Subset.refl _
  | cons right rest ih =>
    cases t with
    | tip a => cases h
    | fork l r =>
      refine List.Subset.trans (ih h) ?_
      cases right with
      | false => exact List.subset_append_left _ _
      | true => exact List.subset_append_right _ _

theorem joins_of_descend (h : t.descend dirs = some t') : t'.joins hash join ⊆ t.joins hash join := by
  induction dirs generalizing t with
  | nil =>
    cases t <;> cases h <;> exact List.Subset.refl _
  | cons right rest ih =>
    cases t with
    | tip a => cases h
    | fork l r =>
      refine List.Subset.trans (ih h) ?_
      cases right with
      | false => exact joins_left
      | true => exact joins_right

/-- Two trees of one hash are one tree, if nothing that was hashed in the one hashes like another thing in the other. -/
theorem eq_of_digest_eq (hmix : Unmixed hash join t (t'.joins hash join))
    (hhash : ∀ a ∈ t.tips, ∀ b ∈ t'.tips, hash a = hash b → a = b)
    (hleft : ∀ a ∈ t.tips, ∀ q ∈ t'.joins hash join, hash a ≠ join q.1 q.2)
    (hright : ∀ b ∈ t'.tips, ∀ p ∈ t.joins hash join, hash b ≠ join p.1 p.2)
    (h : t.digest hash join = t'.digest hash join) : t = t' := by
  induction t generalizing t' with
  | tip a =>
    cases t' with
    | tip b => exact congrArg tip (hhash a (.head _) b (.head _) h)
    | fork l r => exact absurd h (hleft a (.head _) _ (.head _))
  | fork l r ihl ihr =>
    cases t' with
    | tip b => exact absurd h.symm (hright b (.head _) _ (.head _))
    | fork l' r' =>
      have hpair := hmix _ (.head _) _ (.head _) h
      have hl : l = l' := ihl (fun p hp q hq => hmix p (joins_left hp) q (joins_left hq))
        (fun a ha b hb => hhash a (List.mem_append_left _ ha) b (List.mem_append_left _ hb))
        (fun a ha q hq => hleft a (List.mem_append_left _ ha) q (joins_left hq))
        (fun b hb p hp => hright b (List.mem_append_left _ hb) p (joins_left hp)) (congrArg Prod.fst hpair)
      have hr : r = r' := ihr (fun p hp q hq => hmix p (joins_right hp) q (joins_right hq))
        (fun a ha b hb => hhash a (List.mem_append_right _ ha) b (List.mem_append_right _ hb))
        (fun a ha q hq => hleft a (List.mem_append_right _ ha) q (joins_right hq))
        (fun b hb p hp => hright b (List.mem_append_right _ hb) p (joins_right hp)) (congrArg Prod.snd hpair)
      rw [hl, hr]

end HashTree
