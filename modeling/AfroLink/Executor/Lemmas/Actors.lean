import AfroLink.Executor.Lemmas.Genesis

/-!
# Who acts

Only an account some key hashes to ever sends a message or pays a fee: at any other address the record has no keys of
its own, and nobody is there to give it any.
-/

namespace AfroLink

section

variable [Crypto]

def Address.Owned (a : Address) : Prop := ∃ key, Address.fromPublicKey key = a

/-- Where no key has the address, the record has the keys of a fresh one. -/
def Store.Keyed (s : Store) : Prop := ∀ a : Address, ¬ a.Owned → (Account.individual a).SameKeys (s.record a)

/-- Keys, groups and modules hash to different addresses, each being hashed under a domain of its own. -/
structure AddressesApart : Prop where
  keyGroup : GroupAddressesApart
  keyModule : ∀ key seed, Address.fromPublicKey key ≠ Address.derived .moduleAddress seed
  groupModule : ∀ seed seed', Address.derived .groupAddress seed ≠ Address.derived .moduleAddress seed'

theorem GroupAddressesApart.not_owned (h : GroupAddressesApart) (seed : Bytes) :
    ¬ (Address.derived .groupAddress seed).Owned := fun ⟨key, hkey⟩ => h key seed hkey

theorem AddressesApart.module_not_owned (h : AddressesApart) (seed : Bytes) :
    ¬ (Address.derived .moduleAddress seed).Owned := fun ⟨key, hkey⟩ => h.keyModule key seed hkey

def StoreEvent.actor : StoreEvent → Option Address
  | fee payer .. => some payer
  | message _ sender _ => some sender
  | nonce sender => some sender
  | pointer .. => none

def StoreEvent.Owned (ev : StoreEvent) : Prop := ∀ a : Address, ev.actor = some a → a.Owned

/-- `s` becomes `s'` by an event of an account somebody has the key of. -/
def Acts (s : Store) (es : List StoreEvent) (s' : Store) : Prop := Emits s es s' ∧ ∀ ev ∈ es, ev.Owned

/-! ## Records without keys -/

theorem Account.owned_of_authorises {a : Address} {r : Account} {keys : List PublicKey} (haddress : r.address = a)
    (hkeys : ¬ a.Owned → (Account.individual a).SameKeys r) (hauth : r.authorises keys = true) : a.Owned := by
  by_contra hno
  obtain ⟨-, hregular, hsigners⟩ := hkeys hno
  have hregular : r.regularKey = none := hregular
  have hsigners : r.signers = none := hsigners
  unfold authorises at hauth
  split at hauth
  · cases hauth
  · simp only [hregular, hsigners, Option.any_none, Bool.or_false] at hauth
    split at hauth
    · rename_i only
      simp only [Bool.or_eq_true, masterKeyMaySign, Bool.and_eq_true, beq_iff_eq, reduceCtorEq, or_false] at hauth
      exact hno ⟨only, hauth.2.trans haddress⟩
    · cases hauth

namespace Exec

variable {e : Executor} {ctx : BlockContext} {t : Transaction} {s s' : Store}

theorem Checked.sender_owned (h : Checked e ctx t s) (hs : s.Guarded) (hk : s.Keyed) : t.body.sender.Owned :=
  Account.owned_of_authorises (hs _).address (hk _) h.authorises

theorem Checked.payer_owned (h : Checked e ctx t s) (hs : s.Guarded) (hk : s.Keyed) :
    (t.body.fee.payerOr t.body.sender).Owned := by
  cases hp : t.body.fee.payer with
  | none =>
    rw [Fee.payerOr, hp]
    exact h.sender_owned hs hk
  | some payer =>
    rw [Fee.payerOr, hp]
    obtain ⟨v, hv, hauth⟩ := h.sponsor payer hp
    rw [← Store.record_of_read hv] at hauth
    exact Account.owned_of_authorises (hs _).address (hk _) hauth

theorem executeTx_keyed (happart : GroupAddressesApart) (hs : s.Guarded) (hk : s.Keyed) :
    (executeTx e ctx t s).1.Keyed := by
  intro a ha
  -- keys change only under a signature, and nobody can sign here
  have hsame : (s.record a).SameKeys ((executeTx e ctx t s).1.record a) := by
    by_contra hchange
    have hauth := ((executeTx_accounts e ctx t happart hs).2.2 a hchange).2
    exact ha (Account.owned_of_authorises (hs a).address (hk a) hauth)
  exact (hk a ha).trans hsame

/-! ## Events of a transaction -/

theorem settleEvents_owned {payer : Address} (h : t.body.sender.Owned) :
    ∀ ev ∈ settleEvents ctx t payer s, ev.Owned := by
  have hsender : ∀ a : Address, some t.body.sender = some a → a.Owned := by
    rintro a ⟨⟩
    exact h
  intro ev hev
  rcases settleEvents_cases hev with ⟨m, -, rfl⟩ | rfl | ⟨a, p, rfl⟩
  · exact hsender
  · exact hsender
  · exact nofun

theorem txEvents_owned (hs : s.Guarded) (hk : s.Keyed) : ∀ ev ∈ txEvents e ctx t s, ev.Owned := by
  have hcheck := wp_checkTx e ctx t s
  unfold wp at hcheck
  unfold txEvents
  cases hc : checkTx e ctx t s with
  | error err s₁ =>
    intro ev hev
    cases hev
  | ok payer s₁ =>
    rw [hc] at hcheck
    obtain ⟨rfl, rfl, hchecked⟩ := hcheck
    dsimp only
    cases hb : bankTransfer (t.body.fee.payerOr t.body.sender) feeCollectorAddress t.body.fee.denom
        t.body.fee.amount s₁ with
    | error err s₂ =>
      intro ev hev
      cases hev
    | ok u s₂ =>
      intro ev hev
      rcases List.mem_cons.1 hev with rfl | hev
      · rintro a ⟨⟩
        exact hchecked.payer_owned hs hk
      · exact settleEvents_owned (hchecked.sender_owned hs hk) ev hev

theorem txsEvents_owned {ts : List Transaction} (happart : GroupAddressesApart) (hs : s.Guarded) (hk : s.Keyed) :
    (∀ ev ∈ txsEvents e ctx ts s, ev.Owned) ∧ (executeTxs e ctx ts s).1.Keyed := by
  induction ts generalizing s with
  | nil =>
    refine ⟨fun ev hev => ?_, hk⟩
    cases hev
  | cons t rest ih =>
    obtain ⟨hrest, hkeyed⟩ := ih (executeTx_accounts e ctx t happart hs).1 (executeTx_keyed happart hs hk)
    refine ⟨fun ev hev => ?_, hkeyed⟩
    rcases List.mem_append.1 hev with hev | hev
    · exact txEvents_owned hs hk ev hev
    · exact hrest ev hev

end Exec

/-! ## Runs -/

variable {s s' : Store} {es : List StoreEvent}

theorem runEvents_owned [StateRoot] {e : Executor} {blocks : List (BlockContext × List Transaction)}
    (happart : GroupAddressesApart) (hs : s.Guarded) (hk : s.Keyed) : ∀ ev ∈ runEvents e blocks s, ev.Owned := by
  induction blocks generalizing s with
  | nil =>
    intro ev hev
    cases hev
  | cons block rest ih =>
    have hblock : (∀ ev ∈ Exec.txsEvents e block.1 block.2 s, ev.Owned) ∧ (Exec.executeTxs e block.1 block.2 s).1.Keyed :=
      Exec.txsEvents_owned happart hs hk
    intro ev hev
    rcases List.mem_append.1 hev with hev | hev
    · exact hblock.1 ev hev
    · exact ih (Exec.executeTxs_guarded happart hs) hblock.2 ev hev

theorem Acts.guarded (happart : GroupAddressesApart) (hs : s.Guarded) (h : Acts s es s') : s'.Guarded := by
  obtain ⟨hemits, howned⟩ := h
  cases hemits with
  | fee hpay => exact fun a => (Store.record_congr ((Exec.paid_of_runs hpay).frame rfl)).symm ▸ hs a
  | @message _ _ sender m hm =>
    have hsender : sender.Owned := howned _ (.head _) sender rfl
    refine (Exec.applyMessage_keepsAccounts (fun seed hseed => ?_) hs hm).guarded
    exact happart.not_owned seed (hseed ▸ hsender)
  | nonce a =>
    have ha : a.Owned := howned _ (.head _) a rfl
    exact (Exec.bumpNonce_guarded hs fun seed hseed => happart.not_owned seed (hseed ▸ ha)).1
  | pointer a p => exact (Exec.moveHistoryPointer_keepsAccounts a p hs a).1.guarded

end

/-! ## Genesis -/

theorem Genesis.apply_keyed [Crypto] [StateRoot] {g : Genesis} {limits : GenesisLimits} {b : Block} {s' : Store}
    (h : Runs (g.apply limits) .empty b s') : s'.Keyed := by
  intro a _
  rw [install_records (install_of_apply h) a]
  exact .refl _

end AfroLink
