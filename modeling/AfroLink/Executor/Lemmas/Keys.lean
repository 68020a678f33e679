import AfroLink.Executor.Lemmas.Genesis

/-!
# The keys of an account

The three messages that change who may sign for an account change it for their own sender, and nothing else changes it.
-/

namespace AfroLink

section

variable [Crypto]

/-! ## Rules about keys -/

/-- A rule that looks at the address and the keys of a record and at whether the account can sign. -/
structure KeyRule (I : Address → Account → Prop) : Prop where
  fresh : ∀ a, I a (Account.individual a)
  congr : ∀ {a : Address} {r r' : Account}, I a r → r'.address = r.address → r.SameKeys r' →
    (r.canSign = true → r'.canSign = true) → I a r'

namespace KeyRule

variable {I : Address → Account → Prop} {s s' : Store} {es : List StoreEvent}

omit [Crypto] in
theorem readOrFresh (hI : KeyRule I) (hs : ∀ a, I a (s.record a)) (a : Address) : I a (Exec.readOrFresh s a) := by
  rcases Exec.readOrFresh_cases s a with h | ⟨h, -⟩
  · rw [h]
    exact hs a
  · rw [h]
    exact hI.fresh a

omit [Crypto] in
theorem set {b : Address} {r : Account} (hs : ∀ a, I a (s.record a)) (hr : I b r) (a : Address) :
    I a ((s.set (.account b) r).record a) := by
  by_cases ha : a = b
  · subst ha
    rwa [Store.record_set]
  · rw [Store.record_set_of_ne ha]
    exact hs a

/-- The changes an event may make to a record keep the rule. -/
def Allows (I : Address → Account → Prop) : StoreEvent → Prop
  | .message _ sender m => ∀ change, Exec.Message.rekeys m = some change →
      ∀ r r', I sender r → change r = .ok r' → I sender r'
  | _ => True

theorem emits (hI : KeyRule I) (h : Emits s es s') (hallows : ∀ ev ∈ es, Allows I ev) (hs : ∀ a, I a (s.record a)) :
    ∀ a, I a (s'.record a) := by
  cases h with
  | fee h =>
    intro a
    rw [Store.record_congr ((Exec.paid_of_runs h).frame rfl)]
    exact hs a
  | @message _ ctx sender m h =>
    cases hrekeys : Exec.Message.rekeys m with
    | some change =>
      obtain ⟨r, hr, -, rfl⟩ := Exec.runs_of_rekeys h hrekeys
      have hkeep : Allows I (.message ctx sender m) := hallows _ (List.mem_singleton_self _)
      exact set hs (hkeep change hrekeys _ r (hs sender) hr)
    | none =>
      intro a
      by_cases hfounds : Exec.Message.founds m = true
      · cases m <;> cases hfounds
        obtain ⟨address, g, key, -, -, -, rfl⟩ := Exec.createGroup_runs h
        have hgroup : I address { s.record address with kind := .group g } :=
          hI.congr (hs address) rfl ⟨rfl, rfl, rfl⟩ fun _ => rfl
        exact set hs hgroup a
      · by_cases hedits : Exec.Message.editsGroup m = some a
        · obtain ⟨g, g', -, hrec⟩ := Exec.record_of_editsGroup h hedits
          rw [hrec]
          exact hI.congr (hs a) rfl ⟨rfl, rfl, rfl⟩ fun _ => rfl
        · rw [Exec.record_of_applyMessage h (by simpa using hfounds) hedits hrekeys]
          exact hs a
  | nonce b => exact set hs (hI.congr (hI.readOrFresh hs b) rfl ⟨rfl, rfl, rfl⟩ id)
  | pointer b p => exact set hs (hI.congr (hI.readOrFresh hs b) rfl ⟨rfl, rfl, rfl⟩ id)

theorem trace (hI : KeyRule I) (h : Trace Emits s es s') (hallows : ∀ ev ∈ es, Allows I ev)
    (hs : ∀ a, I a (s.record a)) : ∀ a, I a (s'.record a) :=
  (h.restrict hallows).preserves (I := fun s => ∀ a, I a (s.record a))
    (fun _ _ _ hs h => hI.emits h.1 h.2 hs) hs

end KeyRule

/-! ## The key an address is made from -/

def Account.Lists (Q : Address → SignerList → Prop) (a : Address) (r : Account) : Prop :=
  ∀ list, r.signers = some list → Q a list

/-- The regular key is not the key the address is made from. -/
structure Account.Rotates (a : Address) (r : Account) : Prop where
  address : r.address = a
  canSign : r.canSign = true
  regularKey : ∀ key, r.regularKey = some key → Address.fromPublicKey key ≠ a

theorem rotates_keyRule (Q : Address → SignerList → Prop) :
    KeyRule fun a r => Account.Rotates a r ∧ Account.Lists Q a r where
  fresh a := ⟨⟨rfl, rfl, nofun⟩, nofun⟩
  congr := by
    rintro a r r' ⟨hrotates, hlists⟩ haddress hkeys hsign
    refine ⟨⟨haddress.trans hrotates.address, hsign hrotates.canSign, ?_⟩, ?_⟩
    · rw [hkeys.regularKey]
      exact hrotates.regularKey
    · unfold Account.Lists
      rw [hkeys.signers]
      exact hlists

theorem rotates_allows {Q : Address → SignerList → Prop} {ev : StoreEvent}
    (h : ∀ ctx sender list, ev = .message ctx sender (.setSignerList (some list)) → Q sender list) :
    KeyRule.Allows (fun a r => Account.Rotates a r ∧ Account.Lists Q a r) ev := by
  cases ev with
  | message ctx sender m =>
    rintro change hm r r' ⟨hrotates, hlists⟩ hr
    obtain ⟨haddress, -, hkind, -⟩ := Exec.rekeys_ok hm hr
    have hsign : r'.canSign = true := by
      rw [Account.canSign, hkind]
      exact hrotates.canSign
    cases m with
    | setAccountFlag flag enabled =>
      cases hm
      cases hr
      exact ⟨⟨haddress.trans hrotates.address, hsign, hrotates.regularKey⟩, hlists⟩
    | setRegularKey key =>
      cases hm
      unfold Exec.setRegularKey at hr
      split_ifs at hr with hmaster
      cases hr
      refine ⟨⟨haddress.trans hrotates.address, hsign, ?_⟩, hlists⟩
      rintro new rfl hnew
      exact hmaster (by simp [hnew, hrotates.address])
    | setSignerList list =>
      cases hm
      cases hr
      refine ⟨⟨haddress.trans hrotates.address, hsign, hrotates.regularKey⟩, ?_⟩
      rintro new rfl
      exact h ctx sender new rfl
    | _ => cases hm
  | fee | nonce | pointer => trivial

end

/-! ## Weights of one key -/

namespace SignerList

variable {weight : U32} {key : PublicKey} {l : SignerList}

theorem gather_replicate (h : l.weightOf key = some weight) (n : ℕ) (acc : U64) :
    ∃ gathered, l.gather (List.replicate n key) acc = some gathered ∧
      gathered.val = min (acc.val + n * weight.val) (2 ^ 64 - 1) := by
  induction n generalizing acc with
  | zero => exact ⟨acc, rfl, by have := acc.isLt; omega⟩
  | succ n ih =>
    obtain ⟨gathered, hgather, hval⟩ := ih (acc.saturatingAdd (u32To64 weight))
    refine ⟨gathered, ?_, ?_⟩
    · rw [List.replicate_succ, gather, h]
      exact hgather
    · have hweight : (u32To64 weight).val = weight.val := rfl
      rw [hval, Fin.saturatingAdd_val, hweight, Nat.succ_mul]
      omega

theorem satisfiedBy_replicate (h : l.weightOf key = some weight)
    (n : ℕ) : l.satisfiedBy (List.replicate n key) = true ↔ l.quorum.val ≤ n * weight.val := by
  obtain ⟨gathered, hgather, hval⟩ := gather_replicate h n 0
  have hquorum : (u32To64 l.quorum).val = l.quorum.val := rfl
  have hlt := l.quorum.isLt
  have hzero : ((0 : U64) : ℕ) = 0 := rfl
  rw [satisfiedBy, hgather]
  simp only [decide_eq_true_eq, Fin.le_def, hquorum, hval, hzero]
  omega

theorem satisfiedBy_of_unlisted (h : l.weightOf key = none) (keys : List PublicKey) :
    l.satisfiedBy (key :: keys) = false := by
  simp [satisfiedBy, gather, h]

theorem weightOf_pos (h : l.weightOf key = some weight) : 0 < weight.val ∧ 0 < l.quorum.val := by
  have hwf := l.wf
  unfold violation at hwf
  dsimp only at hwf
  split_ifs at hwf with _ _ _ hweights hquorum
  obtain ⟨signer, hfind, rfl⟩ := Option.map_eq_some_iff.1 h
  have hmem := List.mem_of_find?_eq_some hfind
  simp only [List.any_eq_true, beq_iff_eq, not_exists, not_and] at hweights
  exact ⟨Nat.pos_of_ne_zero fun h0 => hweights signer hmem (Fin.ext h0), Nat.pos_of_ne_zero fun h0 => hquorum (Fin.ext h0)⟩

end SignerList

/-! ## A disabled master key -/

namespace Account

variable [Crypto] {a : Address} {r : Account} {key : PublicKey} {keys : List PublicKey}

theorem Rotates.authorises_eq (h : r.Rotates a) (hdisabled : r.flags.isSet .masterKeyDisabled = true)
    (hkey : Address.fromPublicKey key = a) (hkeys : ∀ x ∈ keys, x = key) :
    r.authorises keys = r.signers.any fun list => !keys.isEmpty && list.satisfiedBy keys := by
  have hregular : r.regularKey ≠ some key := fun hr => h.regularKey key hr hkey
  unfold authorises
  rw [h.canSign]
  split
  · contradiction
  · split
    · rename_i only
      obtain rfl : only = key := hkeys only (by simp)
      simp [masterKeyMaySign, hdisabled, hregular]
    · rfl

theorem Rotates.not_authorises_single_iff (h : r.Rotates a) (hdisabled : r.flags.isSet .masterKeyDisabled = true)
    (hkey : Address.fromPublicKey key = a) :
    r.authorises [key] = false ↔
      ∀ list weight, r.signers = some list → list.weightOf key = some weight → weight < list.quorum := by
  rw [h.authorises_eq hdisabled hkey (by simp)]
  cases hlist : r.signers with
  | none => simp
  | some list =>
    simp only [Option.any_some, List.isEmpty_cons, Bool.not_false, Bool.true_and, Option.some.injEq]
    cases hweight : list.weightOf key with
    | none =>
      refine iff_of_true (SignerList.satisfiedBy_of_unlisted hweight []) ?_
      rintro _ w rfl hw
      cases hweight.symm.trans hw
    | some weight =>
      have hiff := SignerList.satisfiedBy_replicate hweight 1
      rw [List.replicate_one, Nat.one_mul] at hiff
      rw [← Bool.not_eq_true, hiff, not_le]
      constructor
      · rintro hlt _ w rfl hw
        obtain rfl := Option.some.inj (hweight.symm.trans hw)
        exact hlt
      · exact fun hall => hall list weight rfl hweight

theorem Rotates.not_authorises_iff (h : r.Rotates a) (hdisabled : r.flags.isSet .masterKeyDisabled = true)
    (hkey : Address.fromPublicKey key = a) :
    (∀ keys : List PublicKey, (∀ x ∈ keys, x = key) → r.authorises keys = false) ↔
      ∀ list, r.signers = some list → list.weightOf key = none := by
  constructor
  · intro hnone list hlist
    by_contra hlisted
    obtain ⟨weight, hweight⟩ := Option.ne_none_iff_exists'.1 hlisted
    obtain ⟨hpos, hquorum⟩ := SignerList.weightOf_pos hweight
    -- as often as the quorum asks
    have hkeys : ∀ x ∈ List.replicate list.quorum.val key, x = key := fun x hx => List.eq_of_mem_replicate hx
    have hauth := hnone _ hkeys
    rw [h.authorises_eq hdisabled hkey hkeys, hlist, Option.any_some] at hauth
    have hsatisfied := (SignerList.satisfiedBy_replicate hweight list.quorum.val).2 (Nat.le_mul_of_pos_right _ hpos)
    simp [hsatisfied, hquorum.ne'] at hauth
  · intro hunlisted keys hkeys
    rw [h.authorises_eq hdisabled hkey hkeys]
    cases hlist : r.signers with
    | none => rfl
    | some list =>
      cases keys with
      | nil => rfl
      | cons first rest =>
        obtain rfl : first = key := hkeys first (by simp)
        simp [SignerList.satisfiedBy_of_unlisted (hunlisted list hlist)]

end Account

end AfroLink
