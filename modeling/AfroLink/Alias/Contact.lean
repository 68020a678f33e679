import AfroLink.Base.Effect
import AfroLink.Crypto.Lemmas.Hashing
import AfroLink.Crypto.Sample

/-!
# Contact commitments

A pepper, a kind and a normalised identifier are hashed one after the other, with no length between them.
-/

namespace AfroLink

def MIN_PEPPER_LEN : ℕ := 16

inductive ContactError where
  | notE164 | malformedEmail
  | weakPepper (len : ℕ)
deriving DecidableEq

inductive ContactKind where
  | phone | email
deriving DecidableEq

def ContactKind.tag : ContactKind → U8
  | phone => 1
  | email => 2

theorem ContactKind.tag_injective {k k' : ContactKind} (h : k.tag = k'.tag) : k = k' := by
  cases k <;> cases k' <;> first | rfl | cases h

/-- The standard library's tables. -/
class Lowercase where
  toLowercase : String → String

/-- `char::is_whitespace`. -/
def isWhitespace (c : Char) : Bool :=
  let n := c.toNat
  (9 ≤ n && n ≤ 13) || n == 0x20 || n == 0x85 || n == 0xA0 || n == 0x1680 || (0x2000 ≤ n && n ≤ 0x200A) ||
    n == 0x2028 || n == 0x2029 || n == 0x202F || n == 0x205F || n == 0x3000

def trim (t : List Char) : List Char := ((t.dropWhile isWhitespace).reverse.dropWhile isWhitespace).reverse

def normalise [Lowercase] (kind : ContactKind) (identifier : String) : Except ContactError String :=
  match kind with
  | .phone =>
    let digits := (trim identifier.toList).filter fun c => !isWhitespace c && c != '-' && c != '(' && c != ')'
    match digits with
    | '+' :: rest =>
      let len := (String.ofList rest).utf8ByteSize
      if !(8 ≤ len && len ≤ 15) || !rest.all isAsciiDigit then .error .notE164 else .ok (String.ofList ('+' :: rest))
    | _ => .error .notE164
  | .email =>
    let lowered := Lowercase.toLowercase (String.ofList (trim identifier.toList))
    -- `split_once` splits at the first
    match lowered.toList.span (· != '@') with
    | (_, []) => .error .malformedEmail
    | (name, _ :: domain) =>
      if name.isEmpty || domain.isEmpty || !domain.contains '.' || domain.head? == some '.' ||
          domain.getLast? == some '.' || lowered.toList.any isWhitespace then .error .malformedEmail
      else .ok lowered

def ContactCommitment.new [Crypto] [Lowercase] (kind : ContactKind) (identifier : String) (pepper : Bytes) :
    Except ContactError Hash32 := do
  if pepper.length < MIN_PEPPER_LEN then throw (.weakPepper pepper.length)
  let normalised ← normalise kind identifier
  return hashParts .contactCommitment [pepper, [kind.tag], utf8Bytes normalised]

/-! ## When commitments tell contacts apart -/

/-- What is hashed for a contact. -/
def contactInput (pepper : Bytes) (kind : ContactKind) (normalised : String) : Bytes :=
  pepper ++ kind.tag :: utf8Bytes normalised

/-- The second pepper is the first one, its tag and a beginning of its identifier, and the rest of that identifier is
the second tag and identifier. -/
def Shifted (pepper : Bytes) (kind : ContactKind) (normalised : String) (pepper' : Bytes) (kind' : ContactKind)
    (normalised' : String) : Prop :=
  ∃ start, pepper' = pepper ++ kind.tag :: start ∧ utf8Bytes normalised = start ++ kind'.tag :: utf8Bytes normalised'

section

variable {kind kind' : ContactKind} {pepper pepper' : Bytes} {normalised normalised' : String}

theorem Shifted.input_eq (h : Shifted pepper kind normalised pepper' kind' normalised') :
    contactInput pepper kind normalised = contactInput pepper' kind' normalised' := by
  obtain ⟨start, hpepper, hnormalised⟩ := h
  simp [contactInput, hpepper, hnormalised]

theorem Shifted.ne (h : Shifted pepper kind normalised pepper' kind' normalised') : pepper ≠ pepper' := by
  obtain ⟨start, hpepper, -⟩ := h
  rintro rfl
  simpa using congrArg List.length hpepper

theorem contactInput_eq (h : contactInput pepper kind normalised = contactInput pepper' kind' normalised') :
    (pepper = pepper' ∧ kind = kind' ∧ normalised = normalised') ∨
      Shifted pepper kind normalised pepper' kind' normalised' ∨ Shifted pepper' kind' normalised' pepper kind normalised := by
  rcases List.append_eq_append_iff.1 h with ⟨_ | ⟨tag, start⟩, hpepper, hrest⟩ | ⟨_ | ⟨tag, start⟩, hpepper, hrest⟩
  · obtain ⟨htag, hbytes⟩ := List.cons.inj hrest
    rw [List.append_nil] at hpepper
    exact .inl ⟨hpepper.symm, ContactKind.tag_injective htag, utf8Bytes_inj.1 hbytes⟩
  · obtain ⟨rfl, hbytes⟩ := List.cons.inj hrest
    exact .inr (.inl ⟨start, hpepper, hbytes⟩)
  · obtain ⟨htag, hbytes⟩ := List.cons.inj hrest
    rw [List.append_nil] at hpepper
    exact .inl ⟨hpepper, (ContactKind.tag_injective htag).symm, (utf8Bytes_inj.1 hbytes).symm⟩
  · obtain ⟨rfl, hbytes⟩ := List.cons.inj hrest
    exact .inr (.inr ⟨start, hpepper, hbytes⟩)

end

namespace ContactCommitment

variable [Crypto] [Lowercase] {kind : ContactKind} {identifier normalised : String} {pepper : Bytes} {c : Hash32}

theorem new_eq (hn : normalise kind identifier = .ok normalised) :
    new kind identifier pepper = if pepper.length < MIN_PEPPER_LEN then .error (.weakPepper pepper.length)
      else .ok (hash .contactCommitment (contactInput pepper kind normalised)) := by
  unfold new
  split
  · rfl
  · simp [hn, hashParts, contactInput]

theorem eq_hash_of_new (h : new kind identifier pepper = .ok c) (hn : normalise kind identifier = .ok normalised) :
    c = hash .contactCommitment (contactInput pepper kind normalised) := by
  rw [new_eq hn] at h
  split at h
  · cases h
  · exact (Except.ok.inj h).symm

end ContactCommitment

/-- Two commitments are equal for different contacts exactly if the contacts are shifted against each other. -/
theorem contact_commitments_injective_iff [Crypto] [Lowercase] {kind kind' : ContactKind}
    {identifier identifier' normalised normalised' : String} {pepper pepper' : Bytes} {c c' : Hash32}
    (hc : ContactCommitment.new kind identifier pepper = .ok c)
    (hc' : ContactCommitment.new kind' identifier' pepper' = .ok c')
    (hn : normalise kind identifier = .ok normalised) (hn' : normalise kind' identifier' = .ok normalised')
    (hfree : CollisionFree [absorbDomain .contactCommitment ++ contactInput pepper kind normalised,
      absorbDomain .contactCommitment ++ contactInput pepper' kind' normalised']) :
    (c = c' → pepper = pepper' ∧ kind = kind' ∧ normalised = normalised') ↔
      ¬Shifted pepper kind normalised pepper' kind' normalised' ∧
        ¬Shifted pepper' kind' normalised' pepper kind normalised := by
  rw [ContactCommitment.eq_hash_of_new hc hn, ContactCommitment.eq_hash_of_new hc' hn']
  constructor
  · intro hinj
    refine ⟨fun h => h.ne ?_, fun h => h.ne ?_⟩
    · exact (hinj (congrArg _ h.input_eq)).1
    · exact (hinj (congrArg _ h.input_eq.symm)).1.symm
  · rintro ⟨hleft, hright⟩ heq
    have hinput := (hfree.hash_inj (.head _) (.tail _ (.head _)) heq).2
    rcases contactInput_eq hinput with h | h | h
    · exact h
    · exact absurd h hleft
    · exact absurd h hright

namespace Sample

scoped instance : Lowercase := ⟨fun t => String.ofList (t.toList.map Char.toLower)⟩

/-- Sixteen bytes. -/
def pepper : Bytes := List.replicate 16 7

theorem contact_commitments_injective_iff_two : ∃ c c',
    ContactCommitment.new .email "Amina@Example.org" pepper = .ok c ∧
      ContactCommitment.new .phone "+254 712 345-678" pepper = .ok c' ∧
      ((c = c' → pepper = pepper ∧ ContactKind.email = .phone ∧ "amina@example.org" = "+254712345678") ↔
        ¬Shifted pepper .email "amina@example.org" pepper .phone "+254712345678" ∧
          ¬Shifted pepper .phone "+254712345678" pepper .email "amina@example.org") := by
  have hn : normalise .email "Amina@Example.org" = .ok "amina@example.org" := by decide +kernel
  have hn' : normalise .phone "+254 712 345-678" = .ok "+254712345678" := by decide +kernel
  have hlen : ¬pepper.length < MIN_PEPPER_LEN := by decide
  have hc := (ContactCommitment.new_eq hn).trans (if_neg hlen)
  have hc' := (ContactCommitment.new_eq hn').trans (if_neg hlen)
  exact ⟨_, _, hc, hc', contact_commitments_injective_iff hc hc' hn hn' (by decide +kernel)⟩

/-- A control character in an address reads as the tag of a shorter address under a longer pepper. -/
theorem contact_commitments_meet :
    ContactCommitment.new .email "a\x02b@c.d" pepper = ContactCommitment.new .email "b@c.d" (pepper ++ [2, 97]) ∧
      (ContactCommitment.new .email "b@c.d" (pepper ++ [2, 97])).isOk = true ∧
      normalise .email "a\x02b@c.d" = .ok "a\x02b@c.d" ∧ normalise .email "b@c.d" = .ok "b@c.d" ∧
      pepper ≠ pepper ++ [2, 97] := by
  decide +kernel

end Sample

end AfroLink
