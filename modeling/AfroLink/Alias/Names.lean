import AfroLink.Alias.Registry

/-!
# The directory of names

The registry without its storage: who holds which name until when, which name stands for each skeleton, and which name
an account displays. A name is leased; past its term and the grace period after it, anyone may claim it.
-/

namespace AfroLink

/-! ## Usernames -/

namespace Username

@[ext] theorem ext {n n' : Username} (h : n.asStr = n'.asStr) : n = n' := by
  cases n
  cases n'
  cases h
  rfl

theorem charError_eq_none {cs : List Char} (h : charError cs = none) :
    ∀ c ∈ cs, c.toNat < 128 ∧ (isAsciiLowercase c || isAsciiDigit c || isSeparator c) = true := by
  induction cs with
  | nil => exact fun c hc => (List.not_mem_nil hc).elim
  | cons c rest ih =>
    unfold charError at h
    split at h
    · cases h
    · split at h
      · cases h
      · rename_i hascii hset
        intro d hd
        rcases List.mem_cons.1 hd with rfl | hd
        · exact ⟨Nat.lt_of_not_le hascii, by rwa [Bool.not_eq_true', Bool.not_eq_false] at hset⟩
        · exact ih h d hd

theorem charset (n : Username) :
    ∀ c ∈ n.asStr.toList, c.toNat < 128 ∧ (isAsciiLowercase c || isAsciiDigit c || isSeparator c) = true := by
  refine charError_eq_none ?_
  have hwf := n.wf
  simp only [violation] at hwf
  split at hwf
  · cases hwf
  · split at hwf
    · cases hwf
    · rename_i hnone
      exact Option.eq_none_iff_forall_not_mem.2 hnone

theorem lower_asStr (n : Username) : lower n.asStr = n.asStr := by
  have hsame : n.asStr.toList.map (fun c => if c.toNat = 0x212A then 'k' else c.toLower) = n.asStr.toList := by
    refine (List.map_congr_left fun c hc => ?_).trans (List.map_id _)
    obtain ⟨hascii, hset⟩ := n.charset c hc
    have htable : ∀ k < 128, (isAsciiLowercase (Char.ofNat k) || isAsciiDigit (Char.ofNat k) ||
        isSeparator (Char.ofNat k)) = true → (Char.ofNat k).toLower = Char.ofNat k := by
      decide
    have hlower := htable c.toNat hascii
    rw [Char.ofNat_toNat] at hlower
    rw [if_neg (by omega), hlower hset, id]
  rw [lower, hsame, String.ofList_toList]

theorem new_asStr (n : Username) : new n.asStr = .ok n := by
  unfold new
  split
  · exact congrArg Except.ok (ext n.lower_asStr)
  · rename_i e he
    rw [lower_asStr, n.wf] at he
    cases he

end Username

@[ext] structure Names where
  record : String → Option NameRecord
  holder : String → Option String
  display : Address → Option String

namespace Names

def empty : Names := ⟨fun _ => none, fun _ => none, fun _ => none⟩

def setRecord (N : Names) (n : Username) (r : Option NameRecord) : Names :=
  { N with record := Function.update N.record n.asStr r }

def setHolder (N : Names) (n : Username) (holder : Option String) : Names :=
  { N with holder := Function.update N.holder n.skeleton holder }

def setDisplay (N : Names) (a : Address) (shown : Option String) : Names :=
  { N with display := Function.update N.display a shown }

def undisplay (N : Names) (n : Username) (a : Address) : Names :=
  if N.display a = some n.asStr then N.setDisplay a none else N

/-- `a` holds `n` by the record `r`, and nobody may claim it yet. -/
structure Owned (N : Names) (now : Height) (a : Address) (n : Username) (r : NameRecord) : Prop where
  record : N.record n.asStr = some r
  owner : r.owner = a
  unclaimable : r.isClaimable now = false

def Concerns : Message → Prop
  | .registerName _ | .renewName _ | .transferName .. | .setPrimaryAlias _ | .clearPrimaryAlias | .releaseName _ => True
  | _ => False

/-- What a message of `a` does to the directory at height `now`. -/
inductive Step (now : Height) (a : Address) (N : Names) : Message → Names → Prop where
  | register {n : Username} (hfree : ∀ r, N.record n.asStr = some r → r.isClaimable now = true)
      (halike : ∀ other : Username, N.holder n.skeleton = some other.asStr → other ≠ n →
        ∀ r, N.record other.asStr = some r → r.isClaimable now = true) :
      Step now a N (.registerName n)
        ((N.setRecord n (some ⟨a, now, Fin.saturatingAdd now REGISTRATION_BLOCKS⟩)).setHolder n (some n.asStr))
  | renew {n : Username} {r : NameRecord} (hr : N.Owned now a n r) :
      Step now a N (.renewName n)
        (N.setRecord n (some { r with expiresAt := Fin.saturatingAdd (max r.expiresAt now) REGISTRATION_BLOCKS }))
  | transfer {n : Username} {dst : Address} {r : NameRecord} (hr : N.Owned now a n r) :
      Step now a N (.transferName n dst) ((N.setRecord n (some { r with owner := dst })).undisplay n a)
  | setPrimary {n : Username} {r : NameRecord} (hr : N.Owned now a n r) :
      Step now a N (.setPrimaryAlias n) (N.setDisplay a (some n.asStr))
  | clearPrimary : Step now a N .clearPrimaryAlias (N.setDisplay a none)
  | release {n : Username} {r : NameRecord} (hr : N.Owned now a n r) :
      Step now a N (.releaseName n) (((N.setRecord n none).setHolder n none).undisplay n a)
  | other {m : Message} (hm : ¬ Concerns m) : Step now a N m N

variable {N N' : Names} {now later : Height} {a : Address} {n n' : Username} {m : Message}

variable {holder shown : Option String} {r : Option NameRecord} {key : String} {b : Address}

@[simp] theorem setHolder_record : (N.setHolder n holder).record = N.record := by
  simp only [setHolder]

@[simp] theorem setDisplay_record : (N.setDisplay a shown).record = N.record := by
  simp only [setDisplay]

@[simp] theorem setRecord_holder : (N.setRecord n r).holder = N.holder := by
  simp only [setRecord]

@[simp] theorem setDisplay_holder : (N.setDisplay a shown).holder = N.holder := by
  simp only [setDisplay]

@[simp] theorem setRecord_display : (N.setRecord n r).display = N.display := by
  simp only [setRecord]

@[simp] theorem setHolder_display : (N.setHolder n holder).display = N.display := by
  simp only [setHolder]

@[simp] theorem setRecord_self : (N.setRecord n r).record n.asStr = r := by
  simp only [setRecord, Function.update_self]

theorem setRecord_of_ne (h : key ≠ n.asStr) : (N.setRecord n r).record key = N.record key := by
  simp only [setRecord, Function.update_of_ne h]

@[simp] theorem setHolder_self : (N.setHolder n holder).holder n.skeleton = holder := by
  simp only [setHolder, Function.update_self]

theorem setHolder_of_ne (h : key ≠ n.skeleton) : (N.setHolder n holder).holder key = N.holder key := by
  simp only [setHolder, Function.update_of_ne h]

@[simp] theorem setDisplay_self : (N.setDisplay a shown).display a = shown := by
  simp only [setDisplay, Function.update_self]

theorem setDisplay_of_ne (h : b ≠ a) : (N.setDisplay a shown).display b = N.display b := by
  simp only [setDisplay, Function.update_of_ne h]

@[simp] theorem undisplay_record : (N.undisplay n a).record = N.record := by
  unfold undisplay
  split <;> rfl

theorem display_of_undisplay {shown : String} (h : (N.undisplay n a).display b = some shown) :
    N.display b = some shown ∧ ¬ (b = a ∧ shown = n.asStr) := by
  unfold undisplay at h
  split at h
  · rcases eq_or_ne b a with rfl | hb
    · rw [setDisplay_self] at h
      cases h
    · rw [setDisplay_of_ne hb] at h
      exact ⟨h, fun hba => hb hba.1⟩
  · rename_i hshown
    refine ⟨h, ?_⟩
    rintro ⟨rfl, rfl⟩
    exact hshown h

/-! ## Who holds a name -/

def Held (N : Names) (n : String) (b : Address) : Prop := ∃ r, N.record n = some r ∧ r.owner = b

theorem held_setHolder : (N.setHolder n holder).Held key b ↔ N.Held key b := by
  rw [Held, setHolder_record, Held]

theorem held_setDisplay : (N.setDisplay a shown).Held key b ↔ N.Held key b := by
  rw [Held, setDisplay_record, Held]

theorem held_undisplay : (N.undisplay n a).Held key b ↔ N.Held key b := by
  rw [Held, undisplay_record, Held]

theorem Held.setRecord (h : N.Held key b) (hne : key ≠ n.asStr) : (N.setRecord n r).Held key b := by
  obtain ⟨r', hr', howner⟩ := h
  exact ⟨r', (setRecord_of_ne hne).trans hr', howner⟩

theorem Owned.owner_eq {r : NameRecord} (h : N.Owned now a n r) (hb : N.Held n.asStr b) : a = b := by
  obtain ⟨r', hr', rfl⟩ := hb
  cases h.record.symm.trans hr'
  exact h.owner.symm

/-- What takes a name from its holder: it gives the name away or up, or anyone comes after the grace period. -/
def Loses (N : Names) (n : Username) (b : Address) (now : Height) (a : Address) (m : Message) : Prop :=
  (a = b ∧ (m = .releaseName n ∨ ∃ dst, m = .transferName n dst)) ∨
    ∃ r, N.record n.asStr = some r ∧ r.isClaimable now = true

theorem Step.held (h : N.Step now a m N') (hN : N.Held n.asStr b) : N'.Held n.asStr b ∨ N.Loses n b now a m := by
  cases h with
  | @register n' hfree halike =>
    rcases eq_or_ne n n' with rfl | hne
    · obtain ⟨r, hr, -⟩ := hN
      exact .inr (.inr ⟨r, hr, hfree r hr⟩)
    · exact .inl (held_setHolder.2 (hN.setRecord fun heq => hne (Username.ext heq)))
  | @renew n' r hr =>
    rcases eq_or_ne n n' with rfl | hne
    · exact .inl ⟨_, setRecord_self, hr.owner.trans (hr.owner_eq hN)⟩
    · exact .inl (hN.setRecord fun heq => hne (Username.ext heq))
  | @transfer n' dst r hr =>
    rcases eq_or_ne n n' with rfl | hne
    · exact .inr (.inl ⟨hr.owner_eq hN, .inr ⟨dst, rfl⟩⟩)
    · exact .inl (held_undisplay.2 (hN.setRecord fun heq => hne (Username.ext heq)))
  | @release n' r hr =>
    rcases eq_or_ne n n' with rfl | hne
    · exact .inr (.inl ⟨hr.owner_eq hN, .inl rfl⟩)
    · exact .inl (held_undisplay.2 (held_setHolder.2 (hN.setRecord fun heq => hne (Username.ext heq))))
  | setPrimary _ => exact .inl (held_setDisplay.2 hN)
  | clearPrimary => exact .inl (held_setDisplay.2 hN)
  | other _ => exact .inl hN

/-! ## What an account displays -/

/-- Every displayed name is held by the account that displays it. -/
def Displayed (N : Names) : Prop := ∀ b shown, N.display b = some shown → N.Held shown b

def Undisplayed (N : Names) (a : Address) (m : Message) : Prop :=
  ∀ n r, m = .registerName n → N.record n.asStr = some r → r.owner ≠ a → N.display r.owner ≠ some n.asStr

theorem displayed_setHolder : (N.setHolder n holder).Displayed ↔ N.Displayed := by
  simp only [Displayed, setHolder_display, held_setHolder]

theorem Displayed.setRecord {r : NameRecord} (hN : N.Displayed)
    (hr : ∀ b, N.display b = some n.asStr → r.owner = b) : (N.setRecord n (some r)).Displayed := by
  intro b shown hshown
  rcases eq_or_ne shown n.asStr with rfl | hne
  · exact ⟨r, setRecord_self, hr b hshown⟩
  · exact (hN b shown hshown).setRecord hne

theorem Displayed.undisplay {r : NameRecord} {N' : Names} (hN : N.Displayed) (hr : N.Owned now a n r)
    (hdisplay : N'.display = N.display) (hrecord : ∀ key, key ≠ n.asStr → N'.record key = N.record key) :
    (N'.undisplay n a).Displayed := by
  intro b shown hshown
  obtain ⟨hshown, hkept⟩ := display_of_undisplay hshown
  rw [hdisplay] at hshown
  have hheld := hN b shown hshown
  rcases eq_or_ne shown n.asStr with rfl | hne
  · exact absurd ⟨(hr.owner_eq hheld).symm, rfl⟩ hkept
  · obtain ⟨r', hr', howner⟩ := hheld
    exact held_undisplay.2 ⟨r', (hrecord shown hne).trans hr', howner⟩

/-- Only a registration can break it, and does exactly where the name is displayed by its former holder. -/
theorem Step.displayed_iff (h : N.Step now a m N') (hN : N.Displayed) : N'.Displayed ↔ N.Undisplayed a m := by
  have hother : (∀ n, m ≠ .registerName n) → N'.Displayed → (N'.Displayed ↔ N.Undisplayed a m) := fun hm h' =>
    iff_of_true h' fun n _ hn => absurd hn (hm n)
  cases h with
  | @register n hfree halike =>
    constructor
    · rintro hN' n r ⟨⟩ hr hne hshown
      obtain ⟨r', hr', howner⟩ := hN' _ _ hshown
      rw [setHolder_record, setRecord_self] at hr'
      cases hr'
      exact hne howner.symm
    · intro hfresh
      refine displayed_setHolder.2 (hN.setRecord fun b hshown => ?_)
      obtain ⟨r, hr, rfl⟩ := hN b _ hshown
      by_contra hne
      exact hfresh n r rfl hr (Ne.symm hne) hshown
  | @renew n r hr =>
    refine hother (fun _ => nofun) (hN.setRecord fun b hshown => ?_)
    exact hr.owner.trans (hr.owner_eq (hN b _ hshown))
  | transfer hr => exact hother (fun _ => nofun) (hN.undisplay hr setRecord_display fun _ => setRecord_of_ne)
  | @setPrimary n r hr =>
    refine hother (fun _ => nofun) fun b shown hshown => ?_
    rcases eq_or_ne b a with rfl | hne
    · rw [setDisplay_self] at hshown
      cases hshown
      exact held_setDisplay.2 ⟨r, hr.record, hr.owner⟩
    · rw [setDisplay_of_ne hne] at hshown
      exact held_setDisplay.2 (hN b shown hshown)
  | clearPrimary =>
    refine hother (fun _ => nofun) fun b shown hshown => ?_
    rcases eq_or_ne b a with rfl | hne
    · rw [setDisplay_self] at hshown
      cases hshown
    · rw [setDisplay_of_ne hne] at hshown
      exact held_setDisplay.2 (hN b shown hshown)
  | release hr =>
    refine hother (fun _ => nofun) (hN.undisplay hr ?_ fun key hkey => ?_)
    · rw [setHolder_display, setRecord_display]
    · rw [setHolder_record, setRecord_of_ne hkey]
  | other hm =>
    refine hother ?_ hN
    rintro n rfl
    exact hm trivial

/-! ## Names that look alike -/

def Live (N : Names) (now : Height) (n : Username) : Prop :=
  ∃ r, N.record n.asStr = some r ∧ r.isClaimable now = false

theorem Owned.live {r : NameRecord} (h : N.Owned now a n r) : N.Live now n := ⟨r, h.record, h.unclaimable⟩

theorem Live.earlier (h : N.Live later n) (hle : now ≤ later) : N.Live now n := by
  obtain ⟨r, hr, hlive⟩ := h
  refine ⟨r, hr, ?_⟩
  simp only [NameRecord.isClaimable, decide_eq_false_iff_not, not_le] at hlive ⊢
  exact hle.trans_lt hlive

theorem live_setHolder : (N.setHolder n holder).Live now n' ↔ N.Live now n' := by
  rw [Live, setHolder_record, Live]

theorem Live.of_setRecord (h : (N.setRecord n r).Live now n') (hne : n' ≠ n) : N.Live now n' := by
  obtain ⟨r', hr', hlive⟩ := h
  exact ⟨r', (setRecord_of_ne fun heq => hne (Username.ext heq)).symm.trans hr', hlive⟩

def Indexed (N : Names) (now : Height) : Prop := ∀ n, N.Live now n → N.holder n.skeleton = some n.asStr

theorem Indexed.of_le (h : N.Indexed now) (hle : now ≤ later) : N.Indexed later := fun n hn => h n (hn.earlier hle)

theorem Indexed.unique (h : N.Indexed now) (hn : N.Live now n) (hn' : N.Live now n')
    (halike : n.skeleton = n'.skeleton) : n = n' := by
  have hsame : some n.asStr = some n'.asStr := by rw [← h n hn, ← h n' hn', halike]
  exact Username.ext (Option.some.inj hsame)

theorem Indexed.setRecord (h : N.Indexed now) (hn : N.Live now n) : (N.setRecord n r).Indexed now := by
  intro n' hlive
  rw [setRecord_holder]
  rcases eq_or_ne n' n with rfl | hne
  · exact h n' hn
  · exact h n' (hlive.of_setRecord hne)

theorem indexed_setDisplay : (N.setDisplay a shown).Indexed now ↔ N.Indexed now := by
  simp only [Indexed, Live, setDisplay_record, setDisplay_holder]

theorem Indexed.undisplay (h : N.Indexed now) : (N.undisplay n a).Indexed now := by
  rw [Names.undisplay]
  split
  · exact indexed_setDisplay.2 h
  · exact h

theorem Step.indexed (h : N.Step now a m N') (hN : N.Indexed now) : N'.Indexed now := by
  cases h with
  | @register n hfree halike =>
    intro n' hlive
    rcases eq_or_ne n' n with rfl | hne
    · exact setHolder_self
    · obtain ⟨r, hr, hunclaimable⟩ : N.Live now n' := Live.of_setRecord (live_setHolder.1 hlive) hne
      have hholder := hN n' ⟨r, hr, hunclaimable⟩
      -- a live name with this skeleton would have stopped the registration
      have hskeleton : n'.skeleton ≠ n.skeleton := by
        intro heq
        have hclaimable := halike n' (heq ▸ hholder) hne r hr
        rw [hunclaimable] at hclaimable
        cases hclaimable
      exact (setHolder_of_ne hskeleton).trans hholder
  | renew hr => exact hN.setRecord hr.live
  | transfer hr => exact (hN.setRecord hr.live).undisplay
  | @release n r hr =>
    refine Indexed.undisplay fun n' hlive => ?_
    have hne : n' ≠ n := by
      rintro rfl
      obtain ⟨r', hr', -⟩ := hlive
      rw [setHolder_record, setRecord_self] at hr'
      cases hr'
    have hbefore : N.Live now n' := Live.of_setRecord (live_setHolder.1 hlive) hne
    -- the released name is the only live one with its skeleton
    have hskeleton : n'.skeleton ≠ n.skeleton := fun heq => hne (hN.unique hbefore hr.live heq)
    exact (setHolder_of_ne hskeleton).trans (hN n' hbefore)
  | setPrimary _ => exact indexed_setDisplay.2 hN
  | clearPrimary => exact indexed_setDisplay.2 hN
  | other _ => exact hN

end Names

end AfroLink
