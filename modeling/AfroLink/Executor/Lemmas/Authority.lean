import AfroLink.Executor.Lemmas.Accounts

/-!
# Who can sign for an account

Along every run the record of an account is an individual's or, at a group address only, a group's; someone can sign for
it; and at a group address nobody can, so that its nonce and its keys are those of a fresh record.
-/

namespace AfroLink

section

variable [Crypto]

/-- Keys and groups hash to different addresses, the two being hashed under different domains. -/
def GroupAddressesApart : Prop := ∀ key seed, Address.fromPublicKey key ≠ Address.derived .groupAddress seed

structure Account.Guarded (a : Address) (r : Account) : Prop where
  address : r.address = a
  usable : r.hasAUsableAuthority = true
  kind : (∃ key, r.kind = .individual key) ∨ ∃ g seed, r.kind = .group g ∧ a = Address.derived .groupAddress seed
  unkeyed : ∀ seed, a = Address.derived .groupAddress seed → r.nonce = 0 ∧ SameKeys (Account.individual a) r

def Store.Guarded (s : Store) : Prop := ∀ a, (s.record a).Guarded a

namespace Account

variable {a sender : Address} {r r' : Account}

theorem Guarded.individual (a : Address) : (Account.individual a).Guarded a :=
  ⟨rfl, rfl, .inl ⟨none, rfl⟩, fun _ _ => ⟨rfl, .refl _⟩⟩

theorem Guarded.update (h : r.Guarded a) (haddress : r'.address = r.address) (hnonce : r'.nonce = r.nonce)
    (hkeys : SameKeys r r')
    (hkind : (∃ key, r'.kind = .individual key) ∨
      ∃ g seed, r'.kind = .group g ∧ a = Address.derived .groupAddress seed) : r'.Guarded a := by
  refine ⟨haddress.trans h.address, hkeys.usable.trans h.usable, hkind, fun seed hseed => ?_⟩
  obtain ⟨hzero, hfresh⟩ := h.unkeyed seed hseed
  exact ⟨hnonce.trans hzero, hfresh.trans hkeys⟩

theorem Guarded.step (h : r.Guarded a) (hsender : ∀ seed, sender ≠ Address.derived .groupAddress seed)
    (hstep : RecordStep sender a r r') : r'.Guarded a := by
  cases hstep with
  | same => exact h
  | rekey ha haddress hnonce hkind _ husable =>
    refine ⟨haddress.trans h.address, husable, hkind ▸ h.kind, fun seed hseed => ?_⟩
    exact absurd (ha.symm.trans hseed) (hsender seed)
  | @regroup g g' hg =>
    refine h.update rfl rfl ⟨rfl, rfl, rfl⟩ (.inr ?_)
    rcases h.kind with ⟨key, hkind⟩ | ⟨_, seed, _, hseed⟩
    · simp [asGroup, hkind] at hg
    · exact ⟨g', seed, rfl, hseed⟩
  | @found seed g key ha hkind => exact h.update rfl rfl ⟨rfl, rfl, rfl⟩ (.inr ⟨g, seed, rfl, ha⟩)

theorem nonce_of_step (h : RecordStep sender a r r') : r'.nonce = r.nonce := by
  cases h with
  | rekey _ _ hnonce => exact hnonce
  | _ => rfl

theorem keys_of_step (h : RecordStep sender a r r') (ha : a ≠ sender) : SameKeys r r' := by
  cases h with
  | rekey ha' => exact absurd ha' ha
  | _ => exact ⟨rfl, rfl, rfl⟩

theorem Guarded.not_authorises (happart : GroupAddressesApart) (h : r.Guarded a) {keys : List PublicKey}
    (hauth : r.authorises keys = true) (seed : Bytes) : a ≠ Address.derived .groupAddress seed := by
  intro hseed
  obtain ⟨-, hkeys⟩ := h.unkeyed seed hseed
  have hregular : r.regularKey = none := hkeys.regularKey
  have hsigners : r.signers = none := hkeys.signers
  unfold authorises at hauth
  split at hauth
  · cases hauth
  · simp only [hregular, hsigners, Option.any_none, Bool.or_false] at hauth
    split at hauth
    · rename_i only
      simp only [Bool.or_eq_true, masterKeyMaySign, Bool.and_eq_true, beq_iff_eq, reduceCtorEq, or_false] at hauth
      exact happart only seed (hauth.2.trans (h.address.trans hseed))
    · cases hauth

end Account

namespace Exec

variable {s s' : Store} {a b sender : Address} {pointer : TxPointer}

/-! ## Bookkeeping -/

omit [Crypto] in
theorem readOrFresh_cases (s : Store) (a : Address) :
    readOrFresh s a = s.record a ∨ readOrFresh s a = Account.individual a ∧ (s.record a).decodeError ≠ none := by
  unfold readOrFresh Store.record Store.getDecoded
  split <;> rename_i h
  · split at h
    · cases h
    · cases h
    · split at h <;> cases h
      simp_all
  · split at h
    · simp_all
    · simp_all
    · rename_i r hr
      split at h
      · simp at h
      · rename_i reason hd
        refine .inr ⟨rfl, fun hnone => ?_⟩
        simp only [hr] at hnone
        cases hd.symm.trans hnone

/-- An unreadable record is a group's, and the fresh one that takes its place has the same nonce and keys. -/
theorem readOrFresh_guarded (h : (s.record a).Guarded a) :
    (readOrFresh s a).Guarded a ∧ (readOrFresh s a).nonce = (s.record a).nonce ∧
      (s.record a).SameKeys (readOrFresh s a) := by
  rcases readOrFresh_cases s a with hread | ⟨hread, herror⟩
  · rw [hread]
    exact ⟨h, rfl, .refl _⟩
  · rw [hread]
    obtain ⟨g, seed, -, hseed⟩ := h.kind.resolve_left fun ⟨key, hkind⟩ =>
      herror (Account.decodeError_eq_none.2 ⟨by rw [hkind]; rfl, h.usable⟩)
    obtain ⟨hnonce, hkeys⟩ := h.unkeyed seed hseed
    exact ⟨.individual a, hnonce.symm, hkeys.flags.symm, hkeys.regularKey.symm, hkeys.signers.symm⟩

/-- Nonces and keys stay as they are, except the keys of `sender`. -/
structure KeepsAccounts (sender : Address) (s s' : Store) : Prop where
  guarded : s'.Guarded
  nonce : ∀ a, (s'.record a).nonce = (s.record a).nonce
  keys : ∀ a, a ≠ sender → (s.record a).SameKeys (s'.record a)

theorem KeepsAccounts.refl (h : s.Guarded) : KeepsAccounts sender s s := ⟨h, fun _ => rfl, fun _ _ => .refl _⟩

theorem KeepsAccounts.trans {s'' : Store} (h : KeepsAccounts sender s s') (h' : KeepsAccounts sender s' s'') :
    KeepsAccounts sender s s'' :=
  ⟨h'.guarded, fun a => (h'.nonce a).trans (h.nonce a), fun a ha => (h.keys a ha).trans (h'.keys a ha)⟩

theorem moveHistoryPointer_keepsAccounts (sender : Address) (pointer : TxPointer) (h : s.Guarded) (b : Address) :
    KeepsAccounts sender s (moveHistoryPointer s b pointer).1 ∧
      ∀ a, (s.record a).SameKeys ((moveHistoryPointer s b pointer).1.record a) := by
  obtain ⟨hguarded, hnonce, hkeys⟩ := readOrFresh_guarded (h b)
  have hb : ∀ a, (moveHistoryPointer s b pointer).1.record a =
      if a = b then pointAt (readOrFresh s b) pointer else s.record a := by
    intro a
    unfold moveHistoryPointer
    split
    · rename_i hab
      subst hab
      exact Store.record_set
    · rename_i hab
      exact Store.record_set_of_ne hab
  have hsame : ∀ a, (s.record a).SameKeys ((moveHistoryPointer s b pointer).1.record a) := by
    intro a
    rw [hb]
    split
    · rename_i hab
      subst hab
      exact ⟨hkeys.flags, hkeys.regularKey, hkeys.signers⟩
    · exact .refl _
  refine ⟨⟨fun a => ?_, fun a => ?_, fun a _ => hsame a⟩, hsame⟩
  · rw [hb]
    split
    · rename_i hab
      subst hab
      exact hguarded.update rfl rfl ⟨rfl, rfl, rfl⟩ hguarded.kind
    · exact h a
  · rw [hb]
    split
    · rename_i hab
      subst hab
      exact hnonce
    · rfl

theorem touchAll_keepsAccounts (sender : Address) (pointer : TxPointer) (l : List Address) (h : s.Guarded) :
    KeepsAccounts sender s (touchAll pointer l s).1 ∧ ∀ a, (s.record a).SameKeys ((touchAll pointer l s).1.record a) := by
  induction l generalizing s with
  | nil => exact ⟨.refl h, fun _ => .refl _⟩
  | cons b rest ih =>
    obtain ⟨hfirst, hkeys⟩ := moveHistoryPointer_keepsAccounts sender pointer h b
    obtain ⟨hrest, hkeys'⟩ := ih hfirst.guarded
    exact ⟨hfirst.trans hrest, fun a => (hkeys a).trans (hkeys' a)⟩

theorem bumpNonce_guarded (h : s.Guarded) (hsender : ∀ seed, sender ≠ Address.derived .groupAddress seed) :
    (bumpNonce s sender).Guarded ∧
      (∀ a, ((bumpNonce s sender).record a).nonce =
        if a = sender then (s.record a).nonce.saturatingAdd 1 else (s.record a).nonce) ∧
      ∀ a, (s.record a).SameKeys ((bumpNonce s sender).record a) := by
  obtain ⟨hguarded, hnonce, hkeys⟩ := readOrFresh_guarded (h sender)
  have hother : ∀ a, a ≠ sender → (bumpNonce s sender).record a = s.record a := fun a => Store.record_set_of_ne
  have hself : (bumpNonce s sender).record sender = (readOrFresh s sender).incrementNonce := Store.record_set
  refine ⟨fun a => ?_, fun a => ?_, fun a => ?_⟩ <;> by_cases ha : a = sender
  · subst ha
    rw [hself]
    exact ⟨hguarded.address, hguarded.usable, hguarded.kind, fun seed hseed => absurd hseed (hsender seed)⟩
  · rw [hother a ha]
    exact h a
  · subst ha
    rw [hself]
    simp [Account.incrementNonce, hnonce]
  · rw [hother a ha]
    simp [ha]
  · subst ha
    rw [hself]
    exact ⟨hkeys.flags, hkeys.regularKey, hkeys.signers⟩
  · rw [hother a ha]
    exact .refl _

/-! ## Messages -/

variable {ctx : BlockContext}

theorem applyMessage_keepsAccounts {m : Message} (hsender : ∀ seed, sender ≠ Address.derived .groupAddress seed)
    (hs : s.Guarded) (h : Runs (applyMessage ctx sender m) s () s') : KeepsAccounts sender s s' :=
  ⟨fun a => (hs a).step hsender (applyMessage_record h a), fun a => Account.nonce_of_step (applyMessage_record h a),
    fun a => Account.keys_of_step (applyMessage_record h a)⟩

theorem applyMessages_keepsAccounts {ms : List Message}
    (hsender : ∀ seed, sender ≠ Address.derived .groupAddress seed) (hs : s.Guarded)
    (h : Runs (applyMessages ctx sender ms) s () s') : KeepsAccounts sender s s' := by
  induction ms generalizing s with
  | nil =>
    obtain ⟨-, rfl⟩ := Runs.pure_iff.1 h
    exact .refl hs
  | cons m rest ih =>
    obtain ⟨u, s₁, hm, hrest⟩ := Runs.bind_iff.1 h
    have hfirst := applyMessage_keepsAccounts hsender hs hm
    exact hfirst.trans (ih hfirst.guarded hrest)

/-! ## Transactions -/

variable {e : Executor} {t : Transaction}

theorem Checked.authorises (h : Checked e ctx t s) : (s.record t.body.sender).authorises t.signingKeys = true := by
  obtain ⟨v, hv, hauth, -⟩ := h.sender
  rwa [Store.record_of_read hv]

theorem Checked.nonce_eq (h : Checked e ctx t s) : (s.record t.body.sender).nonce = t.body.nonce := by
  obtain ⟨v, hv, -, hnonce⟩ := h.sender
  rwa [Store.record_of_read hv]

theorem settle_accounts (ctx : BlockContext) (payer : Address) (hs : s.Guarded)
    (hsender : ∀ seed, t.body.sender ≠ Address.derived .groupAddress seed) :
    (settle ctx t payer s).1.Guarded ∧
      (∀ a, ((settle ctx t payer s).1.record a).nonce =
        if a = t.body.sender then (s.record a).nonce.saturatingAdd 1 else (s.record a).nonce) ∧
      ∀ a, a ≠ t.body.sender → (s.record a).SameKeys ((settle ctx t payer s).1.record a) := by
  -- the messages or nothing, then the nonce, then the pointers
  have hbooks : ∀ s₁ l, KeepsAccounts t.body.sender s s₁ →
      (touchAll ⟨t.id, ctx.height⟩ l (bumpNonce s₁ t.body.sender)).1.Guarded ∧
        (∀ a, ((touchAll ⟨t.id, ctx.height⟩ l (bumpNonce s₁ t.body.sender)).1.record a).nonce =
          if a = t.body.sender then (s.record a).nonce.saturatingAdd 1 else (s.record a).nonce) ∧
        ∀ a, a ≠ t.body.sender →
          (s.record a).SameKeys ((touchAll ⟨t.id, ctx.height⟩ l (bumpNonce s₁ t.body.sender)).1.record a) := by
    intro s₁ l hmessages
    obtain ⟨hg, hnonce, hkeys⟩ := bumpNonce_guarded hmessages.guarded hsender
    obtain ⟨htouch, hkeys'⟩ := touchAll_keepsAccounts t.body.sender ⟨t.id, ctx.height⟩ l hg
    refine ⟨htouch.guarded, fun a => ?_, fun a ha => ?_⟩
    · rw [htouch.nonce, hnonce, hmessages.nonce]
    · exact ((hmessages.keys a ha).trans (hkeys a)).trans (hkeys' a)
  unfold settle
  cases hm : applyMessages ctx t.body.sender t.body.messages s with
  | ok u sandbox => exact hbooks sandbox t.touchedAddresses (applyMessages_keepsAccounts hsender hs hm)
  | error err s' => exact hbooks s (sortDedup [t.body.sender, payer]) (.refl hs)

/-- A transaction moves the nonce of the one who sent it, if it is charged, and no other; and it changes no keys but
those of the sender, who was able to sign. -/
theorem executeTx_accounts (e : Executor) (ctx : BlockContext) (t : Transaction) (happart : GroupAddressesApart) (hs : s.Guarded) :
    (executeTx e ctx t s).1.Guarded ∧
      (∀ a, ((executeTx e ctx t s).1.record a).nonce =
        if a = t.body.sender ∧ rejects e ctx t s = false then (s.record a).nonce.saturatingAdd 1
        else (s.record a).nonce) ∧
      ∀ a, ¬ (s.record a).SameKeys ((executeTx e ctx t s).1.record a) →
        a = t.body.sender ∧ (s.record a).authorises t.signingKeys = true := by
  rcases executeTx_cases e ctx t s with ⟨err, h, -, hrej⟩ | ⟨s₁, hc, hrej, -, hpay, h⟩
  · rw [h, hrej]
    exact ⟨hs, fun a => by simp, fun a ha => absurd (.refl _) ha⟩
  · have hsender := (hs t.body.sender).not_authorises happart hc.authorises
    have hfee : SameRecords s s₁ := .of_frame fun a => (paid_of_runs hpay).frame rfl
    have hs₁ : s₁.Guarded := fun a => (hfee a).symm ▸ hs a
    obtain ⟨hg, hnonce, hkeys⟩ := settle_accounts ctx (t.body.fee.payerOr t.body.sender) hs₁ hsender
    rw [h, hrej]
    refine ⟨hg, fun a => ?_, fun a ha => ?_⟩
    · rw [hnonce, hfee]
      simp
    · have hat : a = t.body.sender := by
        by_contra hne
        exact ha (hfee a ▸ hkeys a hne)
      exact ⟨hat, hat ▸ hc.authorises⟩

theorem executeTxs_guarded {ts : List Transaction} (happart : GroupAddressesApart) (hs : s.Guarded) :
    (executeTxs e ctx ts s).1.Guarded := by
  induction ts generalizing s with
  | nil => exact hs
  | cons t rest ih => exact ih (executeTx_accounts _ _ _ happart hs).1

theorem executeTx_nonce_le (happart : GroupAddressesApart) (hs : s.Guarded) (a : Address) :
    (s.record a).nonce ≤ ((executeTx e ctx t s).1.record a).nonce := by
  rw [(executeTx_accounts _ _ _ happart hs).2.1]
  split
  · exact Fin.le_saturatingAdd _ _
  · exact le_refl _

theorem executeTxs_nonce_le {ts : List Transaction} (happart : GroupAddressesApart) (hs : s.Guarded) (a : Address) :
    (s.record a).nonce ≤ ((executeTxs e ctx ts s).1.record a).nonce := by
  induction ts generalizing s with
  | nil => exact le_refl _
  | cons t rest ih => exact le_trans (executeTx_nonce_le happart hs a) (ih (executeTx_accounts _ _ _ happart hs).1)

/-! ## Spent nonces -/

/-- The transaction is at this nonce of `a`, and it is charged in this store. -/
def spendsHere (e : Executor) (ctx : BlockContext) (a : Address) (nonce : U64) (t : Transaction) (s : Store) : Bool :=
  t.body.sender == a && t.body.nonce == nonce && !rejects e ctx t s

/-- Some transaction of the list is charged at this nonce of `a`, in the store the ones before it leave. -/
def spends (e : Executor) (ctx : BlockContext) (a : Address) (nonce : U64) : List Transaction → Store → Bool
  | [], _ => false
  | t :: rest, s => spendsHere e ctx a nonce t s || spends e ctx a nonce rest (executeTx e ctx t s).1

theorem lt_executeTx_nonce_iff (happart : GroupAddressesApart) (hs : s.Guarded) {a : Address} {nonce : U64} :
    nonce < ((executeTx e ctx t s).1.record a).nonce ↔
      nonce < (s.record a).nonce ∨ nonce.val + 1 < 2 ^ 64 ∧ spendsHere e ctx a nonce t s = true := by
  rw [(executeTx_accounts e ctx t happart hs).2.1]
  simp only [spendsHere, Bool.and_eq_true, beq_iff_eq, Bool.not_eq_true']
  by_cases hsend : a = t.body.sender ∧ rejects e ctx t s = false
  · obtain ⟨rfl, hcharged⟩ := hsend
    have hchecked : Checked e ctx t s := by
      rcases executeTx_cases e ctx t s with ⟨err, -, -, hrej⟩ | ⟨s₁, hc, -⟩
      · cases hrej.symm.trans hcharged
      · exact hc
    rw [if_pos ⟨rfl, hcharged⟩, hchecked.nonce_eq, Fin.lt_def, Fin.lt_def, Fin.saturatingAdd_val]
    simp only [true_and, and_true, hcharged, Fin.ext_iff]
    have hbound := t.body.nonce.isLt
    have hone : ((1 : U64) : ℕ) = 1 := rfl
    omega
  · rw [if_neg hsend]
    constructor
    · exact .inl
    · rintro (hlt | ⟨-, ⟨rfl, -⟩, hcharged⟩)
      · exact hlt
      · exact absurd ⟨rfl, hcharged⟩ hsend

theorem lt_executeTxs_nonce_iff {ts : List Transaction} (happart : GroupAddressesApart) (hs : s.Guarded) {a : Address}
    {nonce : U64} :
    nonce < ((executeTxs e ctx ts s).1.record a).nonce ↔
      nonce < (s.record a).nonce ∨ nonce.val + 1 < 2 ^ 64 ∧ spends e ctx a nonce ts s = true := by
  induction ts generalizing s with
  | nil => simp [executeTxs, spends]
  | cons t rest ih =>
    rw [show (executeTxs e ctx (t :: rest) s).1 = (executeTxs e ctx rest (executeTx e ctx t s).1).1 from rfl,
      ih (executeTx_accounts e ctx t happart hs).1, lt_executeTx_nonce_iff happart hs, spends, Bool.or_eq_true]
    tauto

end Exec

end

end AfroLink
