import AfroLink.Executor.Lemmas.Events

/-!
# What a message does to a currency

The issuer record and the supply of one denomination. Five messages configure the record on the authority's word,
a mint spends an allowance within the cap, an accepted offer hands the authority over and the council may admit a
denomination that has no issuer. Everything else leaves the record alone and lets the supply only fall.
-/

namespace AfroLink

def Store.issuerOf (s : Store) (d : Denom) : Option Issuer :=
  match s.getDecoded (.issuer d) with
  | .ok v => v
  | .error _ => none

variable {d : Denom} {s : Store}

theorem Store.issuerOf_eq_some {i : Issuer} : s.issuerOf d = some i ↔ s.getDecoded (.issuer d) = .ok (some i) := by
  unfold issuerOf
  split <;> simp_all

theorem Store.issuerOf_congr {s' : Store} (h : s' (.issuer d) = s (.issuer d)) : s'.issuerOf d = s.issuerOf d := by
  unfold issuerOf
  rw [Store.getDecoded_congr h]

theorem Store.issuerOf_of_cell {i : Issuer} (h : s (.issuer d) = some (.value i))
    (hi : i.Sound) : s.issuerOf d = some i :=
  issuerOf_eq_some.2 (Store.getDecoded_eq_some.2 ⟨h, Issuer.decodeError_eq_none.2 hi⟩)

theorem Store.supply_congr {s' : Store} (h : s' (.supply d) = s (.supply d)) :
    (s'.ledger d).supply = (s.ledger d).supply := by
  simp [Store.ledger, h]

/-- The change to the issuer record a configuring message asks for. -/
def Message.configures : Message → Option (Denom × (Issuer → Except IssuerError Issuer))
  | .setMinterAllowance d minter allowance => some (d, (·.setMinter minter allowance))
  | .transferIssuerAuthority d dst => some (d, (·.offerAuthority dst))
  | .setFreezer d freezer => some (d, fun i => .ok { i with freezer })
  | .setIssuerPaused d paused => some (d, fun i => .ok { i with paused })
  | .setSupplyCap d cap => some (d, (·.tightenCap cap))
  | _ => none

section

variable {d : Denom} {m : Message} {change : Issuer → Except IssuerError Issuer} {i j : Issuer}

theorem Message.offer_of_configures (hm : m.configures = some (d, change)) (hj : change i = .ok j) :
    (m = .transferIssuerAuthority d j.pendingAuthority ∧ j.authority = i.authority) ∨
      (∀ dst, m ≠ .transferIssuerAuthority d dst) ∧ j.authority = i.authority ∧
        j.pendingAuthority = i.pendingAuthority := by
  cases m <;> cases hm
  case setMinterAllowance minter allowance =>
    have hrest := Issuer.SameButMinters.of_setMinter hj
    exact .inr ⟨nofun, hrest.authority, hrest.pendingAuthority⟩
  case transferIssuerAuthority dst =>
    obtain ⟨-, rfl⟩ := Issuer.offerAuthority_eq_ok.1 hj
    exact .inl ⟨rfl, rfl⟩
  case setSupplyCap cap =>
    obtain ⟨-, rfl⟩ := Issuer.tightenCap_eq_ok.1 hj
    exact .inr ⟨nofun, rfl, rfl⟩
  all_goals
    cases hj
    exact .inr ⟨nofun, rfl, rfl⟩

theorem Message.cap_of_configures (hm : m.configures = some (d, change)) (hj : change i = .ok j) {c : Amount}
    (hc : i.maxSupply = some c) : ∃ c', j.maxSupply = some c' ∧ c' ≤ c := by
  cases m <;> cases hm
  case setMinterAllowance minter allowance =>
    exact ⟨c, (Issuer.SameButMinters.of_setMinter hj).maxSupply.trans hc, le_refl c⟩
  case transferIssuerAuthority dst =>
    obtain ⟨-, rfl⟩ := Issuer.offerAuthority_eq_ok.1 hj
    exact ⟨c, hc, le_refl c⟩
  case setSupplyCap cap =>
    obtain ⟨hle, rfl⟩ := Issuer.tightenCap_eq_ok.1 hj
    exact ⟨cap, rfl, hle c hc⟩
  all_goals
    cases hj
    exact ⟨c, hc, le_refl c⟩

theorem Message.allowance_of_configures (hm : m.configures = some (d, change)) (hj : change i = .ok j)
    {minter : Address} (hne : ∀ x, m ≠ .setMinterAllowance d minter x) : j.allowanceOf minter = i.allowanceOf minter := by
  cases m <;> cases hm
  case setMinterAllowance other allowance =>
    exact Issuer.allowanceOf_setMinter_of_ne (fun h => hne allowance (h ▸ rfl)) hj
  case transferIssuerAuthority dst =>
    obtain ⟨-, rfl⟩ := Issuer.offerAuthority_eq_ok.1 hj
    rfl
  case setSupplyCap cap =>
    obtain ⟨-, rfl⟩ := Issuer.tightenCap_eq_ok.1 hj
    rfl
  all_goals
    cases hj
    rfl

end

def Message.concerns (d : Denom) : Message → Bool
  | .mint d' _ _ | .acceptIssuerAuthority d' => d' = d
  | m => m.configures.any (·.1 = d)

inductive CurrencyStep (d : Denom) (sender : Address) (s s' : Store) : Message → Prop where
  | other {m : Message} (hm : m.concerns d = false) (hi : s'.issuerOf d = s.issuerOf d)
      (hs : (s'.ledger d).supply ≤ (s.ledger d).supply) : CurrencyStep d sender s s' m
  | mint {dst : Address} {x : Amount} {i j : Issuer} (hi : s.issuerOf d = some i)
      (hj : i.spendAllowance sender x = some j) (hi' : s'.issuerOf d = some j)
      (hcap : ∀ cap, i.maxSupply = some cap → (s'.ledger d).supply ≤ cap.val) : CurrencyStep d sender s s' (.mint d dst x)
  | configure {m : Message} {change : Issuer → Except IssuerError Issuer} {i j : Issuer}
      (hm : m.configures = some (d, change)) (hi : s.issuerOf d = some i) (hauth : i.authority = sender)
      (hj : change i = .ok j) (hi' : s'.issuerOf d = some j) (hs : (s'.ledger d).supply = (s.ledger d).supply) :
      CurrencyStep d sender s s' m
  | accept {i j : Issuer} (hi : s.issuerOf d = some i) (hj : i.acceptAuthority sender = .ok j)
      (hi' : s'.issuerOf d = some j) (hs : (s'.ledger d).supply = (s.ledger d).supply) :
      CurrencyStep d sender s s' (.acceptIssuerAuthority d)
  | admission {id : U64} {authority : Address} (hi : s.issuerOf d = none) (hi' : s'.issuerOf d = some (Issuer.new authority))
      (hs : (s'.ledger d).supply = (s.ledger d).supply) : CurrencyStep d sender s s' (.executeGovAction id)

/-! ## The bank -/

namespace Bank

variable {a dst : Address} {d d' : Denom} {x : Amount} {s s' : Store}

theorem runs_configure {change : Issuer → Except IssuerError Issuer} (h : Runs (configure a d change) s () s') :
    ∃ i j, s.getDecoded (.issuer d) = .ok (some i) ∧ i.authority = a ∧ change i = .ok j ∧ s' = s.set (.issuer d) j := by
  have hwp : wp (configure a d change) (fun _ s' => ∃ i j, s.getDecoded (.issuer d) = .ok (some i) ∧
      i.authority = a ∧ change i = .ok j ∧ s' = s.set (.issuer d) j) (fun _ _ => True) s := by
    simp [configure, requireAuthority, writeIssuer, Issuer.isAuthority]
    intro _ i hi hauth j hj
    exact ⟨i, hi, hauth, j, hj, rfl⟩
  exact wp.iff_runs.1 hwp () s' h

theorem runs_acceptIssuerAuthority (h : Runs (acceptIssuerAuthority a d) s () s') :
    ∃ i j, s.getDecoded (.issuer d) = .ok (some i) ∧ i.acceptAuthority a = .ok j ∧ s' = s.set (.issuer d) j := by
  have hwp : wp (acceptIssuerAuthority a d) (fun _ s' => ∃ i j, s.getDecoded (.issuer d) = .ok (some i) ∧
      i.acceptAuthority a = .ok j ∧ s' = s.set (.issuer d) j) (fun _ _ => True) s := by
    simp [acceptIssuerAuthority, writeIssuer]
    intro _ i hi j hj
    exact ⟨i, hi, j, hj, rfl⟩
  exact wp.iff_runs.1 hwp () s' h

theorem runs_admitIssuer (h : Runs (admitIssuer d a) s () s') :
    s.getDecoded (.issuer d) = .ok none ∧ s' = s.set (.issuer d) (Issuer.new a) := by
  have hwp : wp (admitIssuer d a) (fun _ s' => s.getDecoded (.issuer d) = .ok none ∧
      s' = s.set (.issuer d) (Issuer.new a)) (fun _ _ => True) s := by
    simp [admitIssuer, issuer, registerIssuer, writeIssuer]
    intro v hv hnone _
    rw [hv, hnone]
  exact wp.iff_runs.1 hwp () s' h

theorem runs_mint (h : Runs (mint a dst d x) s () s') :
    ∃ i j, s.getDecoded (.issuer d) = .ok (some i) ∧ i.spendAllowance a x = some j ∧
      s' (.issuer d) = some (.value j) ∧ ∀ cap, i.maxSupply = some cap → (s'.ledger d).supply ≤ cap.val := by
  have hwp : wp (mint a dst d x) (fun _ s' => ∃ i j, s.getDecoded (.issuer d) = .ok (some i) ∧
      i.spendAllowance a x = some j ∧ s' (.issuer d) = some (.value j) ∧
      ∀ cap, i.maxSupply = some cap → (s'.ledger d).supply ≤ cap.val) (fun _ _ => True) s := by
    simp [mint, isFrozen, totalSupply, balance, writeIssuer]
    intro _ _ i hi _ _ _ w hw z hz hcap v hv y hy
    split
    · trivial
    · rename_i j hj
      simp only [wp.bind_iff, wp_writeBalance, wp_writeSupply, wp_setEncoded]
      refine ⟨i, hi, j, hj, Store.set_self, fun cap hc => ?_⟩
      have hsupply : (((s.withBalance dst d y).withSupply d z).set (.issuer d) j).ledger d =
          ((s.withBalance dst d y).withSupply d z).ledger d :=
        Store.ledger_congr (fun k hk => Store.set_of_ne (by rintro rfl; cases hk)) d
      rw [hsupply, Store.ledger_withSupply]
      simpa [hc] using hcap
  exact wp.iff_runs.1 hwp () s' h

theorem supply_le_of_sub {y z : Amount} {w : Option Amount} (hw : s.getDecoded (.supply d) = .ok w)
    (hz : (w.getD 0).checkedSub x = .ok z) :
    (((s.withBalance a d y).withSupply d z).ledger d').supply ≤ (s.ledger d').supply := by
  by_cases hd : d' = d
  · subst hd
    have hsup := Store.supply_of_getDecoded hw
    have hsub := Amount.checkedSub_eq_ok.1 hz
    rw [Store.ledger_withSupply]
    simp only
    omega
  · rw [Store.ledger_withSupply_of_ne hd, Store.ledger_withBalance_of_ne hd]

theorem burn_supply_le : Preserves (fun s s' => (s'.ledger d').supply ≤ (s.ledger d').supply) (burn a d x) := by
  intro s
  simp [burn, isFrozen, totalSupply, balance]
  intro _ _ _ _ _ _ v hv y hy w hw z hz
  exact supply_le_of_sub hw hz

theorem slashNative_supply_le :
    Preserves (fun s s' => (s'.ledger d').supply ≤ (s.ledger d').supply) (slashNative a x) := by
  intro s
  simp [slashNative, totalSupply, balance]
  intro _ v hv y hy w hw z hz
  exact supply_le_of_sub hw hz

end Bank

/-! ## Slashing -/

section

variable [Crypto] {d : Denom}

def SupplyFalls (d : Denom) (s s' : Store) : Prop := (s'.ledger d).supply ≤ (s.ledger d).supply

instance : IsTrans Store (SupplyFalls d) := ⟨fun _ _ _ h h' => le_trans h' h⟩

omit [Crypto] in
theorem supplyFalls_bank : BankRelation (fun _ _ => True) (SupplyFalls d) where
  frame h := (Store.supply_congr (h (.supply d) rfl)).le
  transfer {src dst d' x} _ s := by
    refine (Bank.wp_transfer src dst d' x s).mono (fun _ s' hpaid => ?_) fun _ _ _ => trivial
    cases hpaid with
    | self h => exact le_rfl
    | moved y z _ _ _ =>
      refine (Store.supply_congr ?_).le
      rw [Store.withBalance_apply (.supply d) nofun, Store.withBalance_apply (.supply d) nofun]
  slash _ := Bank.slashNative_supply_le

/-! ## Messages -/

variable {ctx : BlockContext} {sender : Address} {m : Message} {s s' : Store}

open Exec

theorem CurrencyStep.of_frame (h : Runs (applyMessage ctx sender m) s () s') (hm : m.concerns d = false)
    (hi : ¬ m.MayWrite sender (.issuer d)) (hs : ¬ m.MayWrite sender (.supply d)) : CurrencyStep d sender s s' m := by
  have hw := (applyMessage_keeps.run h).1
  exact .other hm (Store.issuerOf_congr (hw.frame _ hi)) (Store.supply_congr (hw.frame _ hs)).le

omit [Crypto] in
theorem CurrencyStep.of_configure {change : Issuer → Except IssuerError Issuer}
    (hm : m.configures = some (d, change)) (hsound : ∀ i j, i.Sound → change i = .ok j → j.Sound)
    {s₁ : Store} (h : Runs (Bank.configure sender d change) s () s₁) (hi : s' (.issuer d) = s₁ (.issuer d))
    (hs : s' (.supply d) = s₁ (.supply d)) : CurrencyStep d sender s s' m := by
  obtain ⟨i, j, hread, hauth, hj, rfl⟩ := Bank.runs_configure h
  have hsj := hsound i j (Bank.issuer_sound hread) hj
  refine .configure hm (Store.issuerOf_eq_some.2 hread) hauth hj ?_ ?_
  · exact Store.issuerOf_of_cell (hi.trans Store.set_self) hsj
  · rw [Store.supply_congr hs]
    exact Store.supply_congr (Store.set_of_ne nofun)

/-- A message that configures `d'` is about `d` if that is its denomination, and leaves it alone otherwise. -/
theorem CurrencyStep.of_configures {d' : Denom} {change : Issuer → Except IssuerError Issuer}
    (h : Runs (applyMessage ctx sender m) s () s') (hm : m.configures = some (d', change))
    (hsound : ∀ i j, i.Sound → change i = .ok j → j.Sound)
    (hrun : ∃ s₁, Runs (Bank.configure sender d' change) s () s₁ ∧ s' (.issuer d') = s₁ (.issuer d') ∧
      s' (.supply d') = s₁ (.supply d')) : CurrencyStep d sender s s' m := by
  by_cases hd : d' = d
  · subst hd
    obtain ⟨s₁, hrun, hi, hs⟩ := hrun
    exact .of_configure hm hsound hrun hi hs
  · have hd' : d ≠ d' := fun h => hd h.symm
    cases m <;> cases hm <;>
      exact .of_frame h (by simp [Message.concerns, Message.configures, hd]) (by simp [Message.MayWrite, hd'])
        (Message.not_mayWrite (by simp))

namespace Exec

omit [Crypto] in
theorem applyGovAction_issuer {action : GovAction} (h : Runs (applyGovAction action) s () s') :
    s' (.issuer d) = s (.issuer d) ∨
      ∃ authority, s.getDecoded (.issuer d) = .ok none ∧ s' (.issuer d) = some (.value (Issuer.new authority)) := by
  cases action with
  | setCouncil c =>
    exact .inl (Governance.setCouncil_keeps.frame (Runs.mapErr_iff.1 h) nofun)
  | setParams p =>
    exact .inl (Governance.setParams_keeps.frame (Runs.mapErr_iff.1 h) nofun)
  | licenseAttestor a r =>
    obtain ⟨u, s₁, hreg, hacc⟩ := Runs.bind_iff.1 h
    obtain ⟨-, rfl⟩ := Runs.modify_iff.1 (Runs.mapErr_iff.1 hreg)
    exact .inl ((ensureAccount_frame (k := .issuer _) hacc nofun).trans (Store.set_of_ne nofun))
  | setAttestorActive a active =>
    exact .inl (Bindings.setAttestorActive_keeps.frame (Runs.mapErr_iff.1 h) nofun)
  | admitDenom d' authority =>
    obtain ⟨u, s₁, hadmit, hacc⟩ := Runs.bind_iff.1 h
    obtain ⟨hnone, rfl⟩ := Bank.runs_admitIssuer (Runs.mapErr_iff.1 hadmit)
    by_cases hd : d' = d
    · subst hd
      exact .inr ⟨authority, hnone, (ensureAccount_frame (k := .issuer _) hacc nofun).trans Store.set_self⟩
    · exact .inl ((ensureAccount_frame (k := .issuer _) hacc nofun).trans (Store.set_of_ne (by simpa using fun h => hd h.symm)))
  | cancel id => exact absurd h (by simp [applyGovAction])

theorem executeGovAction_issuer {id : U64} (h : Runs (applyMessage ctx sender (.executeGovAction id)) s () s') :
    s' (.issuer d) = s (.issuer d) ∨
      ∃ authority, s (.issuer d) = none ∧ s' (.issuer d) = some (.value (Issuer.new authority)) := by
  obtain ⟨action, s₁, hexec, haction⟩ := Runs.bind_iff.1 h
  have hsame : s₁ (.issuer d) = s (.issuer d) :=
    Governance.execute_keeps.frame (Runs.mapErr_iff.1 hexec) nofun
  rcases applyGovAction_issuer haction with hi | ⟨authority, hnone, hi⟩
  · exact .inl (hi.trans hsame)
  · exact .inr ⟨authority, hsame ▸ Store.getDecoded_eq_none.1 hnone, hi⟩

theorem executeGovAction_currency {id : U64} (h : Runs (applyMessage ctx sender (.executeGovAction id)) s () s') :
    CurrencyStep d sender s s' (.executeGovAction id) := by
  have hsupply := Store.supply_congr ((applyMessage_keeps.run h).1.frame (.supply d)
    (Message.not_mayWrite (by simp)))
  rcases executeGovAction_issuer h with hi | ⟨authority, hnone, hi⟩
  · exact .other rfl (Store.issuerOf_congr hi) hsupply.le
  · have hbefore : s.issuerOf d = none := by
      unfold Store.issuerOf
      rw [Store.getDecoded_eq_none.2 hnone]
    exact .admission hbefore (Store.issuerOf_of_cell hi (Issuer.new_sound authority)) hsupply

theorem applyMessage_currency (h : Runs (applyMessage ctx sender m) s () s') : CurrencyStep d sender s s' m := by
  have hw := (applyMessage_keeps.run h).1
  cases m with
  | mint d' dst x =>
    by_cases hd : d' = d
    · subst hd
      obtain ⟨i, j, hi, hj, hi', hcap⟩ := Bank.runs_mint (Runs.mapErr_iff.1 h)
      exact .mint (Store.issuerOf_eq_some.2 hi) hj
        (Store.issuerOf_of_cell hi' ((Bank.issuer_sound hi).spendAllowance hj)) hcap
    · have hd' : d ≠ d' := fun h => hd h.symm
      exact .of_frame h (by simp [Message.concerns, hd]) (by simp [Message.MayWrite, hd'])
        (by simp [Message.MayWrite, hd'])
  | burn d' x =>
    refine .other rfl (Store.issuerOf_congr (hw.frame _ (by simp [Message.MayWrite]))) ?_
    exact Bank.burn_supply_le.run (Runs.mapErr_iff.1 h)
  | reportEquivocation evidence =>
    refine .other rfl (Store.issuerOf_congr (hw.frame _ ?_)) ((reportEquivocation_along supplyFalls_bank trivial).run h)
    rintro (hk | hk | hk) <;> cases hk
  | setMinterAllowance d' minter allowance => exact .of_configures h rfl (fun _ _ => .setMinter) ⟨_, Runs.mapErr_iff.1 h, rfl, rfl⟩
  | setSupplyCap d' cap => exact .of_configures h rfl (fun _ _ => .tightenCap) ⟨_, Runs.mapErr_iff.1 h, rfl, rfl⟩
  | setIssuerPaused d' paused => exact .of_configures h rfl (fun _ _ => .withPaused) ⟨_, Runs.mapErr_iff.1 h, rfl, rfl⟩
  | setFreezer d' freezer => exact .of_configures h rfl (fun _ _ => .withFreezer) ⟨_, Runs.mapErr_iff.1 h, rfl, rfl⟩
  | transferIssuerAuthority d' dst =>
    obtain ⟨u, s₁, hoffer, hacc⟩ := Runs.bind_iff.1 h
    have hframe : ∀ k, (∀ a, k ≠ .account a) → s' k = s₁ k := by
      intro k hk
      cases dst with
      | none =>
        obtain ⟨-, rfl⟩ := Runs.pure_iff.1 hacc
        rfl
      | some a => exact ensureAccount_frame hacc (hk a)
    exact .of_configures h rfl (fun _ _ => .offerAuthority)
      ⟨s₁, Runs.mapErr_iff.1 hoffer, hframe _ (by simp), hframe _ (by simp)⟩
  | acceptIssuerAuthority d' =>
    by_cases hd : d' = d
    · subst hd
      obtain ⟨i, j, hi, hj, rfl⟩ := Bank.runs_acceptIssuerAuthority (Runs.mapErr_iff.1 h)
      exact .accept (Store.issuerOf_eq_some.2 hi) hj
        (Store.issuerOf_of_cell Store.set_self ((Bank.issuer_sound hi).acceptAuthority hj)) (Store.supply_congr (Store.set_of_ne (by simp)))
    · exact .of_frame h (by simp [Message.concerns, hd]) (by simpa [Message.MayWrite] using fun h => hd h.symm)
        (by simp [Message.MayWrite])
  | executeGovAction id => exact executeGovAction_currency h
  | _ => exact .of_frame h rfl (Message.not_mayWrite (by simp)) (Message.not_mayWrite (by simp))

end Exec

/-! ## Events -/

/-- What becomes of the currency between two stores, and the message behind it. -/
inductive CurrencyMove (d : Denom) : Store → List (Address × Message) → Store → Prop where
  | quiet {s s' : Store} (hi : s'.issuerOf d = s.issuerOf d) (hs : (s'.ledger d).supply = (s.ledger d).supply) :
      CurrencyMove d s [] s'
  | message {s s' : Store} {sender : Address} {m : Message} (h : CurrencyStep d sender s s' m) :
      CurrencyMove d s [(sender, m)] s'

theorem Emits.currency {s s' : Store} {es : List StoreEvent} (h : Emits s es s') :
    CurrencyMove d s (es.filterMap StoreEvent.took) s' := by
  rcases h.quiet_or_message with hes | ⟨ctx, sender, m, rfl, hm⟩
  · rw [hes]
    exact .quiet (Store.issuerOf_congr (h.frame hes nofun nofun)) (Store.supply_congr (h.frame hes nofun nofun))
  · exact .message (Exec.applyMessage_currency hm)

end

/-- The messages of a run that took effect, with their senders, in order. -/
def runMessages [Crypto] [StateRoot] (e : Executor) (blocks : List (BlockContext × List Transaction)) (s : Store) :
    List (Address × Message) :=
  (runEvents e blocks s).filterMap StoreEvent.took

def Exec.txMessages [Crypto] (e : Executor) (ctx : BlockContext) (t : Transaction) (s : Store) :
    List (Address × Message) :=
  (txEvents e ctx t s).filterMap StoreEvent.took

theorem Exec.sender_of_mem_txMessages [Crypto] {e : Executor} {ctx : BlockContext} {t : Transaction}
    {sender : Address} {m : Message} (h : (sender, m) ∈ txMessages e ctx t s) :
    sender = t.body.sender ∧ m ∈ t.body.messages := by
  obtain ⟨ev, hev, htook⟩ := List.mem_filterMap.1 h
  unfold txEvents at hev
  split at hev
  · cases hev
  · split at hev
    · cases hev
    · rcases List.mem_cons.1 hev with rfl | hev
      · cases htook
      · rcases List.mem_append.1 hev with hev | hev
        · split at hev
          · cases hev
          · obtain ⟨m', hm', rfl⟩ := List.mem_map.1 hev
            cases htook
            exact ⟨rfl, hm'⟩
        · rcases List.mem_cons.1 hev with rfl | hev
          · cases htook
          · obtain ⟨a, -, rfl⟩ := List.mem_map.1 hev
            cases htook

theorem executeTx_currency [Crypto] (e : Executor) (ctx : BlockContext) (t : Transaction) (s : Store) (d : Denom) :
    Trace (CurrencyMove d) s (Exec.txMessages e ctx t s) (Exec.executeTx e ctx t s).1 :=
  (Exec.executeTx_trace e ctx t s).filterMap _ Emits.currency

theorem executeBlocks_currency [Crypto] [StateRoot] (e : Executor) (blocks : List (BlockContext × List Transaction))
    (s : Store) (d : Denom) : Trace (CurrencyMove d) s (runMessages e blocks s) (executeBlocks e blocks s) :=
  (executeBlocks_trace e blocks s).filterMap _ Emits.currency

end AfroLink
