import AfroLink.Executor.Lemmas.Events
import AfroLink.Executor.Lemmas.Accounts

/-!
# Freezes

Every operation of the bank looks at the freezes of the accounts it pays from and to, so that the balance of a frozen
account stands still until the freeze is lifted.
-/

namespace AfroLink

/-! ## Frozen balances -/

/-- If `a` is frozen for `d`, it stays so and its balance stays the same. -/
def FrozenStill (d : Denom) (a : Address) (s s' : Store) : Prop :=
  s (.frozen d a) ≠ none → s' (.balance a d) = s (.balance a d) ∧ s' (.frozen d a) = s (.frozen d a)

section

variable {d : Denom} {a : Address}

theorem FrozenStill.refl (s : Store) : FrozenStill d a s s := fun _ => ⟨rfl, rfl⟩

theorem FrozenStill.of_frame {s s' : Store} (hb : s' (.balance a d) = s (.balance a d))
    (hf : s' (.frozen d a) = s (.frozen d a)) : FrozenStill d a s s' := fun _ => ⟨hb, hf⟩

instance : IsTrans Store (FrozenStill d a) := ⟨fun s t u h h' hs => by
  obtain ⟨hb, hf⟩ := h hs
  obtain ⟨hb', hf'⟩ := h' (hf ▸ hs)
  exact ⟨hb'.trans hb, hf'.trans hf⟩⟩

theorem FrozenStill.money {s : Store} {b : Address} {d' : Denom} {y z : Amount}
    (h : s (.frozen d a) ≠ none → StoreKey.balance a d ≠ .balance b d') :
    FrozenStill d a s ((s.withBalance b d' y).withSupply d' z) := by
  intro hfrozen
  rw [Store.withSupply_apply (.balance a d) nofun, Store.withBalance_apply _ (h hfrozen),
    Store.withSupply_apply (.frozen d a) nofun, Store.withBalance_apply (.frozen d a) nofun]
  exact ⟨rfl, rfl⟩

theorem balance_ne_of_unfrozen {s : Store} {b : Address} {d' : Denom} (hb : s (.frozen d' b) = none)
    (h : s (.frozen d a) ≠ none) : StoreKey.balance a d ≠ .balance b d' := by
  rintro ⟨⟩
  exact h hb

namespace Bank

variable {src dst minter : Address} {d' : Denom} {x : Amount}

theorem wp_transfer_unfrozen (s : Store) : wp (transfer src dst d' x)
    (fun _ _ => s (.frozen d' src) = none ∧ s (.frozen d' dst) = none) (fun _ _ => True) s := by
  simp [transfer, isFrozen, balance]
  intro _ hsrc hdst
  exact ⟨fun _ _ _ _ => ⟨hsrc, hdst⟩, fun _ _ _ _ _ _ _ _ _ => ⟨hsrc, hdst⟩⟩

theorem transfer_frozenStill : Preserves (FrozenStill d a) (transfer src dst d' x) := by
  intro s
  refine ((wp_transfer src dst d' x s).and (wp_transfer_unfrozen s)).mono ?_ fun _ _ _ => trivial
  rintro _ s' ⟨hpaid, hsrc, hdst⟩
  cases hpaid with
  | self h => exact .refl s
  | moved y z _ _ _ =>
    intro hfrozen
    rw [Store.withBalance_apply _ (balance_ne_of_unfrozen hdst hfrozen),
      Store.withBalance_apply _ (balance_ne_of_unfrozen hsrc hfrozen),
      Store.withBalance_apply (.frozen d a) nofun, Store.withBalance_apply (.frozen d a) nofun]
    exact ⟨rfl, rfl⟩

theorem mint_frozenStill : Preserves (FrozenStill d a) (mint minter dst d' x) := by
  intro s
  simp [mint, isFrozen, totalSupply, balance, writeIssuer]
  intro _ _ i _ _ _ hdst w _ z _ _ v _ y _
  split
  · trivial
  · simp only [wp.bind_iff, wp_writeBalance, wp_writeSupply, wp_setEncoded]
    have hmoney : FrozenStill d a s ((s.withBalance dst d' y).withSupply d' z) := .money (balance_ne_of_unfrozen hdst)
    exact IsTrans.trans _ _ _ hmoney (.of_frame (Store.set_of_ne (by simp)) (Store.set_of_ne (by simp)))

theorem burn_frozenStill : Preserves (FrozenStill d a) (burn minter d' x) := by
  intro s
  simp [burn, isFrozen, totalSupply, balance]
  intro _ _ i _ _ hminter v _ y _ w _ z _
  exact .money (balance_ne_of_unfrozen hminter)

theorem slashNative_frozenStill (hd : d ≠ .native) : Preserves (FrozenStill d a) (slashNative src x) := by
  intro s
  simp [slashNative, totalSupply, balance]
  intro _ v _ y _ w _ z _
  refine .money ?_
  rintro _ ⟨⟩
  exact hd rfl

theorem freeze_frozenStill {b caller : Address} {frozen : Bool} (hne : ¬ (d' = d ∧ b = a)) :
    Preserves (FrozenStill d a) (if frozen then freeze caller b d' else unfreeze caller b d') := by
  have hkey : StoreKey.frozen d a ≠ .frozen d' b := by
    rintro ⟨⟩
    exact hne ⟨rfl, rfl⟩
  intro s
  split
  · simp [freeze]
    intro _ i _ _
    exact .of_frame (Store.set_of_ne (by simp)) (Store.set_of_ne hkey)
  · simp [unfreeze]
    intro _ i _ _
    exact .of_frame (Store.delete_of_ne (by simp)) (Store.delete_of_ne hkey)

end Bank

theorem frozenStill_bank (hd : d ≠ .native) : BankRelation (fun _ _ => True) (FrozenStill d a) where
  frame h := .of_frame (h _ rfl) (h _ rfl)
  transfer _ := Bank.transfer_frozenStill
  slash _ := Bank.slashNative_frozenStill hd

end

section

variable [Crypto] {d : Denom} {a : Address} {s s' : Store} {es : List StoreEvent}

def StoreEvent.freezes (d : Denom) (a : Address) : StoreEvent → Prop
  | message _ _ (.setFrozen d' a' _) => d' = d ∧ a' = a
  | _ => False

theorem Emits.frozenStill (hd : d ≠ .native) (h : Emits s es s') (hes : ∀ ev ∈ es, ¬ ev.freezes d a) :
    FrozenStill d a s s' := by
  cases h with
  | fee hpay => exact (Exec.bankTransfer_along (frozenStill_bank hd) trivial).run hpay
  | @message _ ctx sender m hm =>
    have hmessage : wp (Exec.applyMessage ctx sender m) (fun _ s' => FrozenStill d a s s') (fun _ _ => True) s := by
      refine Exec.applyMessage_along (frozenStill_bank hd) (fun _ => trivial) (fun _ _ _ _ => trivial)
        (fun _ _ => trivial) (fun _ _ _ _ => Bank.mint_frozenStill) (fun _ _ _ => Bank.burn_frozenStill) ?_
      rintro d' b frozen rfl
      exact Bank.freeze_frozenStill (hes _ (.head _))
    exact wp.iff_runs.1 hmessage () s' hm
  | nonce b => exact .of_frame (Store.set_of_ne nofun) (Store.set_of_ne nofun)
  | pointer b p =>
    have hset : ∀ k, k ≠ .account b → (Exec.moveHistoryPointer s b p).1 k = s k := fun k hk => Store.set_of_ne hk
    exact .of_frame (hset (.balance a d) nofun) (hset (.frozen d a) nofun)

/-! ## What a freeze leaves alone -/

/-- Apart from freezes for `d`, nonces and history pointers, nothing of the bank or of the accounts differs. -/
structure OnlyFreezes (d : Denom) (s s' : Store) : Prop where
  freezes : ∀ d' a, d' ≠ d → s' (.frozen d' a) = s (.frozen d' a)
  ledger : ∀ d', s'.ledger d' = s.ledger d'
  accounts : ∀ a v, s.getDecoded (.account a) = .ok v → ∃ v' nonce lastTxn, s'.getDecoded (.account a) = .ok v' ∧
    v'.getD (Account.individual a) = { v.getD (Account.individual a) with nonce, lastTxn }

namespace OnlyFreezes

omit [Crypto] in
theorem refl (s : Store) : OnlyFreezes d s s :=
  ⟨fun _ _ _ => rfl, fun _ => rfl, fun _ v hv => ⟨v, _, _, hv, rfl⟩⟩

omit [Crypto] in
theorem trans {s'' : Store} (h : OnlyFreezes d s s') (h' : OnlyFreezes d s' s'') : OnlyFreezes d s s'' := by
  refine ⟨fun d' a hd => (h'.freezes d' a hd).trans (h.freezes d' a hd), fun d' => (h'.ledger d').trans (h.ledger d'), ?_⟩
  intro a v hv
  obtain ⟨v', nonce, lastTxn, hv', heq⟩ := h.accounts a v hv
  obtain ⟨v'', nonce', lastTxn', hv'', heq'⟩ := h'.accounts a v' hv'
  exact ⟨v'', nonce', lastTxn', hv'', by rw [heq', heq]⟩

omit [Crypto] in
theorem set_account {b : Address} {r : Account} {nonce : U64} {lastTxn : Option TxPointer}
    (hr : r = { Exec.readOrFresh s b with nonce, lastTxn }) : OnlyFreezes d s (s.set (.account b) r) := by
  refine ⟨fun _ _ _ => Store.set_of_ne nofun,
    Store.ledger_congr fun k hk => Store.set_of_ne (by rintro rfl; cases hk), fun a v hv => ?_⟩
  by_cases ha : a = b
  · subst ha
    have hdecodes : r.decodeError = none := by
      rw [hr]
      exact Exec.readOrFresh_decodes s a
    rw [Exec.readOrFresh_of_getDecoded hv] at hr
    exact ⟨some r, nonce, lastTxn, Store.getDecoded_eq_some.2 ⟨Store.set_self, hdecodes⟩, hr⟩
  · refine ⟨v, _, _, ?_, rfl⟩
    rw [Store.getDecoded_congr (Store.set_of_ne (by simpa using ha)), hv]

end OnlyFreezes

theorem Emits.onlyFreezes (h : Emits s es s') (hfee : ∀ payer d x, .fee payer d x ∉ es)
    (hes : ∀ ctx sender m, .message ctx sender m ∈ es → ∃ a frozen, m = .setFrozen d a frozen) : OnlyFreezes d s s' := by
  cases h with
  | @fee _ payer d x hpay => exact absurd (.head _) (hfee payer d x)
  | @message _ ctx sender m hm =>
    obtain ⟨a, frozen, rfl⟩ := hes ctx sender m (.head _)
    have hw := (Exec.applyMessage_keeps.run hm).1
    have hframe : ∀ k, k ≠ .frozen d a → s' k = s k := fun k hk => hw.frame k hk
    refine ⟨fun d' b hd => hframe _ ?_, Store.ledger_congr fun k hk => hframe k ?_, fun b v hv => ⟨v, _, _, ?_, rfl⟩⟩
    · rintro ⟨⟩
      exact hd rfl
    · rintro rfl
      cases hk
    · rw [Store.getDecoded_congr (hframe (.account b) nofun), hv]
  | nonce a => exact .set_account rfl
  | pointer a p => exact .set_account rfl

end

end AfroLink
