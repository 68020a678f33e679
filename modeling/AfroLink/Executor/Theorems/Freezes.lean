import AfroLink.Executor.Lemmas.Freezes
import AfroLink.Executor.Lemmas.Regular
import AfroLink.Executor.Theorems.Accounts
import AfroLink.Executor.Theorems.Currency

/-!
# A freeze is complete and contained

While an account is frozen for a denomination no transaction moves its balance, and a transaction that changes freezes
of one denomination changes nothing else but the fee.
-/

namespace AfroLink

open Exec

theorem freeze_complete_and_contained [Crypto] [StateRoot] (g : Genesis) (limits : GenesisLimits) (block : Block)
    (start : Store) (hgenesis : Runs (g.apply limits) .empty block start) (e : Executor) (s : Store)
    (hs : Occurs e start s) (ctx : BlockContext) (t : Transaction) :
    (∀ d a, s (.frozen d a) ≠ none → (∀ frozen, .setFrozen d a frozen ∉ t.body.messages) →
      ((executeTx e ctx t s).1.ledger d).balance a = (s.ledger d).balance a) ∧
    ∀ d, (∀ m ∈ t.body.messages, ∃ a frozen, m = .setFrozen d a frozen) →
      ∃ charged, (charged = s ∨ Runs (bankTransfer (t.body.fee.payerOr t.body.sender) feeCollectorAddress t.body.fee.denom
        t.body.fee.amount) s () charged) ∧ OnlyFreezes d charged (executeTx e ctx t s).1 := by
  refine ⟨fun d a hfrozen hno => ?_, fun d hall => ?_⟩
  · have hd : d ≠ .native := by
      rintro rfl
      exact hfrozen (hs.unfrozen hgenesis a)
    have hevents : ∀ ev ∈ txEvents e ctx t s, ¬ ev.freezes d a := by
      intro ev hev hfreezes
      rcases txEvents_cases hev with ⟨payer, rfl⟩ | ⟨m, hm, rfl⟩ | rfl | ⟨b, p, rfl⟩
      · cases hfreezes
      · cases m with
        | setFrozen d' b frozen =>
          obtain ⟨rfl, rfl⟩ := hfreezes
          exact hno frozen hm
        | _ => cases hfreezes
      · cases hfreezes
      · cases hfreezes
    have hstill : FrozenStill d a s (executeTx e ctx t s).1 :=
      ((executeTx_trace e ctx t s).restrict hevents).preserves (I := FrozenStill d a s)
        (fun _ _ _ hbefore hstep => IsTrans.trans _ _ _ hbefore (hstep.1.frozenStill hd hstep.2)) (.refl s)
    simp only [Store.ledger, (hstill hfrozen).1]
  · rcases executeTx_cases e ctx t s with ⟨err, h, -⟩ | ⟨s₁, -, -, -, hpay, h⟩
    · rw [h]
      exact ⟨s, .inl rfl, .refl s⟩
    · rw [h]
      refine ⟨s₁, .inr hpay, ?_⟩
      refine ((settle_trace ctx t (t.body.fee.payerOr t.body.sender) s₁).restrict fun ev hev => settleEvents_cases hev).preserves
        (I := OnlyFreezes d s₁) (fun s' es s'' hbefore hstep => hbefore.trans (hstep.1.onlyFreezes ?_ ?_)) (.refl s₁)
      · intro payer d' x hev
        rcases hstep.2 _ hev with ⟨m, -, hm⟩ | hm | ⟨b, p, hm⟩ <;> cases hm
      · intro c sender m hev
        rcases hstep.2 _ hev with ⟨m', hmem, hm⟩ | hm | ⟨b, p, hm⟩
        · cases hm
          exact hall m hmem
        · cases hm
        · cases hm

namespace Sample

def issuingGenesis : Genesis :=
  { genesisOf [(addressOf 1, 1000), (addressOf 2, 1000)] with
    issuers := [(shilling, centralBank)]
    issuers_decode := by decide }

def issued : Store :=
  match issuingGenesis.install .devnet .empty with
  | .ok _ s => s
  | .error _ _ => .empty

theorem issued_genesis : ∃ block, Runs (issuingGenesis.apply .devnet) .empty block issued := by
  refine Genesis.apply_of_install ?_
  have hok : (match issuingGenesis.install .devnet .empty with
      | .ok _ _ => true
      | .error _ _ => false) = true := by
    decide +kernel
  unfold issued Runs
  split at hok
  · rename_i heq
    rw [heq]
  · cases hok

def frozen : Store :=
  (executeTx ⟨chain⟩ ⟨1, 5⟩
    (sent 1 0 [.mint shilling (addressOf 2) 40, .setFrozen shilling (addressOf 2) true]) issued).1

theorem freeze_complete_and_contained_frozen :
    ((executeTx ⟨chain⟩ ⟨2, 6⟩
      (sent 2 0 [.transfer (addressOf 1) shilling 10 none]) frozen).1.ledger shilling).balance (addressOf 2) = 40 := by
  obtain ⟨block, hgenesis⟩ := issued_genesis
  have hoccurs : Occurs ⟨chain⟩ issued frozen := by
    unfold frozen
    exact executeTx_occurs _ _ _ _
  have hfrozen : frozen (.frozen shilling (addressOf 2)) ≠ none := by decide +kernel
  have hbalance : (frozen.ledger shilling).balance (addressOf 2) = 40 := by decide +kernel
  have hno : ∀ frozen, Message.setFrozen shilling (addressOf 2) frozen ∉
      (sent 2 0 [.transfer (addressOf 1) shilling 10 none]).body.messages := by
    intro frozen hmem
    cases List.mem_singleton.1 hmem
  rw [← hbalance]
  exact (freeze_complete_and_contained _ _ block _ hgenesis ⟨chain⟩ frozen hoccurs ⟨2, 6⟩ _).1 _ _ hfrozen hno

end Sample

end AfroLink
