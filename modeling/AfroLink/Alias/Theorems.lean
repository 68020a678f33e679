import AfroLink.Alias.Names

/-!
# Lookalike names and their skeletons

The skeleton folds digraphs first and drops separators and folds characters after. A digraph is therefore only seen
where its two characters stand next to each other as they are: a separator between them, or a lookalike of one of
them, hides it.
-/

namespace AfroLink

/-! ## Reading a name -/

/-- The pairs of characters that look like one. -/
inductive Digraph where
  | rn | vv | cl | nn
deriving DecidableEq

namespace Digraph

def first : Digraph → Char
  | rn => 'r'
  | vv => 'v'
  | cl => 'c'
  | nn => 'n'

def second : Digraph → Char
  | rn => 'n'
  | vv => 'v'
  | cl => 'l'
  | nn => 'n'

def looksLike : Digraph → Char
  | rn => 'm'
  | vv => 'w'
  | cl => 'd'
  | nn => 'm'

def of? (x y : Char) : Option Digraph :=
  if x = 'r' ∧ y = 'n' then some rn
  else if x = 'v' ∧ y = 'v' then some vv
  else if x = 'c' ∧ y = 'l' then some cl
  else if x = 'n' ∧ y = 'n' then some nn
  else none

theorem of?_eq_some {x y : Char} {d : Digraph} (h : of? x y = some d) : x = d.first ∧ y = d.second := by
  unfold of? at h
  split_ifs at h with hrn hvv hcl hnn
  · cases h; exact hrn
  · cases h; exact hvv
  · cases h; exact hcl
  · cases h; exact hnn

theorem of?_eq_none {x y : Char} (h : of? x y = none) :
    ¬ (x = 'r' ∧ y = 'n') ∧ ¬ (x = 'v' ∧ y = 'v') ∧ ¬ (x = 'c' ∧ y = 'l') ∧ ¬ (x = 'n' ∧ y = 'n') := by
  unfold of? at h
  split_ifs at h with hrn hvv hcl hnn
  exact ⟨hrn, hvv, hcl, hnn⟩

theorem first_injective {d d' : Digraph} (h : d.first = d'.first) : d = d' := by
  cases d <;> cases d' <;> first | rfl | exact absurd h (by decide)

end Digraph

/-- What a reader sees at a place of a name: a character by its class, or a digraph. -/
inductive Glyph where
  | letter (c : Char)
  | digraph (d : Digraph)
deriving DecidableEq

namespace Glyph

def shown : Glyph → Char
  | letter c => c
  | digraph d => d.looksLike

def letters : Glyph → List Char
  | letter c => [c]
  | digraph d => [d.first, d.second]

end Glyph

/-- A name read from left to right: a digraph where one stands, else a character, and separators passed over. -/
def readGlyphs : List Char → List Glyph
  | [] => []
  | [x] => if isSeparator x then [] else [.letter (Username.fold x)]
  | x :: y :: rest =>
    match Digraph.of? x y with
    | some d => .digraph d :: readGlyphs rest
    | none => if isSeparator x then readGlyphs (y :: rest) else .letter (Username.fold x) :: readGlyphs (y :: rest)

/-- Where the digraphs are: for each, how many letters and digits come before it. -/
def digraphsFrom : ℕ → List Glyph → List ℕ
  | _, [] => []
  | n, .letter _ :: gs => digraphsFrom (n + 1) gs
  | n, .digraph _ :: gs => n :: digraphsFrom (n + 2) gs

def Username.digraphs (n : Username) : List ℕ := digraphsFrom 0 (readGlyphs n.asStr.toList)

/-! ## The replacements are one reading -/

namespace Username

variable {a b c x : Char} {cs : List Char}

theorem replaceDigraph_cons (h : ¬ (x = a ∧ cs.head? = some b)) :
    replaceDigraph a b c (x :: cs) = x :: replaceDigraph a b c cs := by
  cases cs with
  | nil => rfl
  | cons y rest => exact if_neg (by simpa using h)

theorem replaceDigraph_cons_of_ne (h : x ≠ a) : replaceDigraph a b c (x :: cs) = x :: replaceDigraph a b c cs :=
  replaceDigraph_cons fun hpair => h hpair.1

theorem replaceDigraph_pair : replaceDigraph a b c (a :: b :: cs) = c :: replaceDigraph a b c cs := by
  simp [replaceDigraph]

theorem head?_replaceDigraph_ne {z : Char} (hz : z ≠ c) (h : cs.head? ≠ some z) :
    (replaceDigraph a b c cs).head? ≠ some z := by
  match cs, h with
  | [], h => exact h
  | [_], h => exact h
  | x :: y :: rest, h =>
    unfold replaceDigraph
    split
    · simpa using hz.symm
    · exact h

def replaceDigraphs (cs : List Char) : List Char :=
  replaceDigraph 'n' 'n' 'm' (replaceDigraph 'c' 'l' 'd' (replaceDigraph 'v' 'v' 'w' (replaceDigraph 'r' 'n' 'm' cs)))

theorem replaceDigraphs_pair (d : Digraph) (cs : List Char) :
    replaceDigraphs (d.first :: d.second :: cs) = d.looksLike :: replaceDigraphs cs := by
  unfold replaceDigraphs
  cases d <;>
    simp [Digraph.first, Digraph.second, Digraph.looksLike, replaceDigraph_pair, replaceDigraph_cons_of_ne]

theorem replaceDigraphs_cons {y : Char} (h : Digraph.of? x y = none) :
    replaceDigraphs (x :: y :: cs) = x :: replaceDigraphs (y :: cs) := by
  obtain ⟨hrn, hvv, hcl, hnn⟩ := Digraph.of?_eq_none h
  unfold replaceDigraphs
  have hhead : ∀ {z : Char}, y ≠ z → (y :: cs).head? ≠ some z := by simp
  -- What a later replacement finds after `x` is `y`, or what an earlier one put there.
  have h₁ : ¬ (x = 'r' ∧ (y :: cs).head? = some 'n') := by simpa using hrn
  have h₂ : ¬ (x = 'v' ∧ (replaceDigraph 'r' 'n' 'm' (y :: cs)).head? = some 'v') := by
    rintro ⟨rfl, hy⟩
    revert hy
    apply head?_replaceDigraph_ne (by decide)
    exact hhead fun heq => hvv ⟨rfl, heq⟩
  have h₃ : ¬ (x = 'c' ∧ (replaceDigraph 'v' 'v' 'w' (replaceDigraph 'r' 'n' 'm' (y :: cs))).head? = some 'l') := by
    rintro ⟨rfl, hy⟩
    revert hy
    apply head?_replaceDigraph_ne (by decide)
    apply head?_replaceDigraph_ne (by decide)
    exact hhead fun heq => hcl ⟨rfl, heq⟩
  have h₄ : ¬ (x = 'n' ∧ (replaceDigraph 'c' 'l' 'd'
      (replaceDigraph 'v' 'v' 'w' (replaceDigraph 'r' 'n' 'm' (y :: cs)))).head? = some 'n') := by
    rintro ⟨rfl, hy⟩
    revert hy
    apply head?_replaceDigraph_ne (by decide)
    apply head?_replaceDigraph_ne (by decide)
    apply head?_replaceDigraph_ne (by decide)
    exact hhead fun heq => hnn ⟨rfl, heq⟩
  rw [replaceDigraph_cons h₁, replaceDigraph_cons h₂, replaceDigraph_cons h₃, replaceDigraph_cons h₄]

theorem shown_readGlyphs (cs : List Char) :
    (readGlyphs cs).map Glyph.shown = ((replaceDigraphs cs).filter fun c => !isSeparator c).map fold := by
  induction cs using readGlyphs.induct with
  | case1 => rfl
  | case2 x hsep => simp [readGlyphs, replaceDigraphs, replaceDigraph, hsep]
  | case3 x hsep => simp [readGlyphs, replaceDigraphs, replaceDigraph, hsep, Glyph.shown]
  | case4 x y rest d hd ih =>
    obtain ⟨rfl, rfl⟩ := Digraph.of?_eq_some hd
    rw [replaceDigraphs_pair, readGlyphs, hd]
    cases d <;> simp [ih, Glyph.shown, Digraph.looksLike, fold, isSeparator]
  | case5 x y rest hd hsep ih => simp [readGlyphs, hd, replaceDigraphs_cons hd, hsep, ih]
  | case6 x y rest hd hsep ih => simp [readGlyphs, hd, replaceDigraphs_cons hd, hsep, ih, Glyph.shown]

theorem letters_readGlyphs (cs : List Char) :
    (readGlyphs cs).flatMap Glyph.letters = (cs.filter fun c => !isSeparator c).map fold := by
  induction cs using readGlyphs.induct with
  | case1 => rfl
  | case2 x hsep => simp [readGlyphs, hsep]
  | case3 x hsep => simp [readGlyphs, hsep, Glyph.letters]
  | case4 x y rest d hd ih =>
    obtain ⟨rfl, rfl⟩ := Digraph.of?_eq_some hd
    rw [readGlyphs, hd]
    cases d <;> simp [ih, Glyph.letters, Digraph.first, Digraph.second, fold, isSeparator]
  | case5 x y rest hd hsep ih => simp [readGlyphs, hd, hsep, ih]
  | case6 x y rest hd hsep ih => simp [readGlyphs, hd, hsep, ih, Glyph.letters]

end Username

/-! ## Two readings of the same letters -/

theorem le_of_mem_digraphsFrom {n k : ℕ} {gs : List Glyph} (h : k ∈ digraphsFrom n gs) : n ≤ k := by
  induction gs generalizing n with
  | nil => cases h
  | cons g gs ih =>
    cases g with
    | letter c => exact (Nat.le_succ n).trans (ih h)
    | digraph d =>
      rcases List.mem_cons.1 h with rfl | h
      · exact le_rfl
      · exact (Nat.le_add_right n 2).trans (ih h)

theorem shown_ne_of_letter {d : Digraph} {gs gs' : List Glyph} (n : ℕ) :
    (Glyph.letter d.first :: gs).map Glyph.shown ≠ (Glyph.digraph d :: gs').map Glyph.shown ∧
      digraphsFrom n (.letter d.first :: gs) ≠ digraphsFrom n (.digraph d :: gs') := by
  constructor
  · intro heq
    have hfirst : d.first = d.looksLike := (List.cons.inj heq).1
    cases d <;> exact absurd hfirst (by decide)
  · intro heq
    have hmem : n ∈ digraphsFrom n (.letter d.first :: gs) := by
      rw [heq]
      exact .head _
    have hle : n + 1 ≤ n := le_of_mem_digraphsFrom hmem
    omega

theorem shown_eq_iff {gs gs' : List Glyph} (h : gs.flatMap Glyph.letters = gs'.flatMap Glyph.letters) (n : ℕ) :
    gs.map Glyph.shown = gs'.map Glyph.shown ↔ digraphsFrom n gs = digraphsFrom n gs' := by
  induction gs generalizing gs' n with
  | nil =>
    cases gs' with
    | nil => simp
    | cons g' gs' => cases g' <;> simp [Glyph.letters] at h
  | cons g gs ih =>
    cases gs' with
    | nil => cases g <;> simp [Glyph.letters] at h
    | cons g' gs' =>
      cases g with
      | letter c =>
        cases g' with
        | letter c' =>
          simp only [List.flatMap_cons, Glyph.letters, List.singleton_append, List.cons.injEq] at h
          simpa [Glyph.shown, digraphsFrom, h.1] using ih h.2 (n + 1)
        | digraph d' =>
          simp only [List.flatMap_cons, Glyph.letters, List.cons_append, List.cons.injEq, List.nil_append] at h
          rw [h.1]
          exact iff_of_false (shown_ne_of_letter n).1 (shown_ne_of_letter n).2
      | digraph d =>
        cases g' with
        | letter c' =>
          simp only [List.flatMap_cons, Glyph.letters, List.cons_append, List.cons.injEq, List.nil_append] at h
          rw [← h.1]
          exact iff_of_false (shown_ne_of_letter n).1.symm (shown_ne_of_letter n).2.symm
        | digraph d' =>
          simp only [List.flatMap_cons, Glyph.letters, List.cons_append, List.cons.injEq, List.nil_append] at h
          obtain ⟨hfirst, -, hrest⟩ := h
          rw [Digraph.first_injective hfirst]
          simpa [digraphsFrom] using ih hrest (n + 2)

/-! ## Lookalikes -/

def LOOKALIKES : List (List Char) := [['0', 'o'], ['1', 'i', 'l'], ['5', 's'], ['2', 'z'], ['8', 'b']]

def Lookalike (x y : Char) : Prop := x = y ∨ ∃ alike ∈ LOOKALIKES, x ∈ alike ∧ y ∈ alike

instance : DecidableRel Lookalike := fun _ _ => inferInstanceAs (Decidable (_ ∨ _))

/-- Without their separators, the names are made of characters that look alike. -/
def Username.Confusable (a b : Username) : Prop :=
  List.Forall₂ Lookalike (a.asStr.toList.filter fun c => !isSeparator c) (b.asStr.toList.filter fun c => !isSeparator c)

instance (a b : Username) : Decidable (a.Confusable b) := inferInstanceAs (Decidable (List.Forall₂ _ _ _))

theorem Lookalike.fold_eq {x y : Char} (h : Lookalike x y) : Username.fold x = Username.fold y := by
  rcases h with rfl | ⟨alike, hmem, hx, hy⟩
  · rfl
  · have hall : ∀ alike ∈ LOOKALIKES, ∀ x ∈ alike, ∀ y ∈ alike, Username.fold x = Username.fold y := by
      simp [LOOKALIKES, Username.fold]
    exact hall alike hmem x hx y hy

theorem Username.Confusable.letters_eq {a b : Username} (h : a.Confusable b) :
    (readGlyphs a.asStr.toList).flatMap Glyph.letters = (readGlyphs b.asStr.toList).flatMap Glyph.letters := by
  rw [letters_readGlyphs, letters_readGlyphs]
  apply List.forall₂_eq_eq_eq.le
  rw [List.forall₂_map_left_iff, List.forall₂_map_right_iff]
  exact h.imp fun _ _ => Lookalike.fold_eq

theorem Username.skeleton_eq (n : Username) :
    n.skeleton = String.ofList ((readGlyphs n.asStr.toList).map Glyph.shown) := by
  rw [shown_readGlyphs]
  rfl

/-- Names that look alike share a skeleton exactly when the digraphs that stand unbroken in them are at the same
places. -/
theorem confusable_skeleton_iff (a b : Username) (h : a.Confusable b) :
    a.skeleton = b.skeleton ↔ a.digraphs = b.digraphs := by
  rw [a.skeleton_eq, b.skeleton_eq, String.ofList_inj]
  exact shown_eq_iff h.letters_eq 0

namespace Sample

def clara : Username := ⟨"clara", by decide⟩

def clara' : Username := ⟨"c1ara", by decide⟩

/-- `l` and `1` look alike, but only `cl` is taken for a `d`. -/
theorem confusable_skeletons_differ :
    clara.Confusable clara' ∧ clara.skeleton = "dara" ∧ clara'.skeleton = "clara" := by
  decide +kernel

def bola : Username := ⟨"bola-rn", by decide⟩

def bola' : Username := ⟨"8o_1arn", by decide⟩

theorem confusable_skeletons_agree : bola.Confusable bola' ∧ bola.skeleton = bola'.skeleton := by
  have h : bola.Confusable bola' := by decide +kernel
  exact ⟨h, (confusable_skeleton_iff bola bola' h).2 (by decide +kernel)⟩

end Sample

end AfroLink
