import AfroLink.Executor.Theorems.Money
import AfroLink.Executor.Lemmas.Currency

/-!
# What a run of blocks can do to a currency

A supply cap only tightens, a minter mints no more than its allowance, and the authority over a denomination
passes only to the one its holder has offered it to.
-/

namespace AfroLink

open Exec

/-! ## The cap -/

section

variable {d : Denom} {sender : Address} {s s' : Store} {m : Message}

/-- The issuer of `d` has a cap of at most `cap`, and the supply is within `bound`. -/
def Store.CappedAt (d : Denom) (cap : Amount) (bound : ℕ) (s : Store) : Prop :=
  ∃ i c, s.issuerOf d = some i ∧ i.maxSupply = some c ∧ c ≤ cap ∧ (s.ledger d).supply ≤ bound

theorem CurrencyStep.cappedAt {cap : Amount} {bound : ℕ} (hb : cap.val ≤ bound) (h : CurrencyStep d sender s s' m)
    (hs : s.CappedAt d cap bound) : s'.CappedAt d cap bound := by
  obtain ⟨i, c, hi, hc, hle, hsup⟩ := hs
  cases h with
  | other hm hsame hfall => exact ⟨i, c, hsame.trans hi, hc, hle, hfall.trans hsup⟩
  | mint hi₀ hj hi' hcap =>
    cases hi.symm.trans hi₀
    have hc' := (Issuer.SameButMinters.of_spendAllowance hj).maxSupply.trans hc
    exact ⟨_, c, hi', hc', hle, (hcap c hc).trans (le_trans hle hb)⟩
  | configure hm hi₀ _ hj hi' hsame =>
    cases hi.symm.trans hi₀
    obtain ⟨c', hc', hle'⟩ := Message.cap_of_configures hm hj hc
    exact ⟨_, c', hi', hc', hle'.trans hle, hsame.le.trans hsup⟩
  | accept hi₀ hj hi' hsame =>
    cases hi.symm.trans hi₀
    exact ⟨_, c, hi', (Issuer.acceptAuthority_eq_ok.1 hj).2 ▸ hc, hle, hsame.le.trans hsup⟩
  | admission hnone => simp [hi] at hnone

theorem CurrencyMove.cappedAt {cap : Amount} {bound : ℕ} (hb : cap.val ≤ bound) {l : List (Address × Message)}
    (h : CurrencyMove d s l s') (hs : s.CappedAt d cap bound) : s'.CappedAt d cap bound := by
  cases h with
  | quiet hi hsup =>
    obtain ⟨i, c, hi₀, hc, hle, hsup₀⟩ := hs
    exact ⟨i, c, hi.trans hi₀, hc, hle, hsup.le.trans hsup₀⟩
  | message h => exact h.cappedAt hb hs

end

theorem executeBlocks_supply_cap_ratchets [Crypto] [StateRoot] (e : Executor)
    (blocks : List (BlockContext × List Transaction)) (s : Store) (d : Denom) (i : Issuer) (c : Amount)
    (hi : s.issuerOf d = some i) (hc : i.maxSupply = some c) :
    ∃ i' c', (executeBlocks e blocks s).issuerOf d = some i' ∧ i'.maxSupply = some c' ∧ c' ≤ c ∧
      ((executeBlocks e blocks s).ledger d).supply ≤ max (s.ledger d).supply c.val :=
  (executeBlocks_currency e blocks s d).preserves (I := Store.CappedAt d c (max (s.ledger d).supply c.val))
    (fun _ _ _ hs h => h.cappedAt (le_max_right _ _) hs) ⟨i, c, hi, hc, le_refl c, le_max_left _ _⟩

namespace Sample

def shilling : Denom := ⟨"sov/kes", by decide⟩

/-- Account 1 is the authority over the shilling, of which there may be 100 and it may mint 50 itself. -/
def centralBank : Issuer :=
  { Issuer.new (addressOf 1) with minters := [⟨addressOf 1, 50⟩], maxSupply := some 100 }

/-- Accounts 1 and 2 can pay fees, and account 1 issues the shilling. -/
def issuing : Store :=
  ((((Store.empty.withBalance (addressOf 1) .native 1000).withBalance (addressOf 2) .native 1000).withSupply .native
    2000).set (.issuer shilling) centralBank)

def capping : List (BlockContext × List Transaction) :=
  [(⟨1, 5⟩, [sent 1 0 [.mint shilling (addressOf 2) 40, .setSupplyCap shilling 60], sent 1 1 [.setSupplyCap shilling 80]])]

theorem executeBlocks_supply_cap_ratchets_capping :
    ∃ i' c', (executeBlocks ⟨chain⟩ capping issuing).issuerOf shilling = some i' ∧ i'.maxSupply = some c' ∧ c' ≤ 100 ∧
      ((executeBlocks ⟨chain⟩ capping issuing).ledger shilling).supply ≤ max (issuing.ledger shilling).supply 100 :=
  executeBlocks_supply_cap_ratchets ⟨chain⟩ capping issuing shilling centralBank 100 (by decide +kernel) rfl

end Sample

/-! ## Allowances -/

def Store.allowance (s : Store) (d : Denom) (minter : Address) : ℕ :=
  ((s.issuerOf d).map (·.allowanceOf minter)).getD 0

def Message.mints (d : Denom) : Message → ℕ
  | .mint d' _ x => if d' = d then x.val else 0
  | _ => 0

section

variable {d : Denom} {minter sender : Address} {s s' : Store} {m : Message}

theorem CurrencyStep.allowance (h : CurrencyStep d sender s s' m)
    (hm : ∀ x, m ≠ .setMinterAllowance d minter x) :
    (if sender = minter then m.mints d else 0) + s'.allowance d minter = s.allowance d minter := by
  unfold Store.allowance
  cases h with
  | other hc hsame _ =>
    have hzero : m.mints d = 0 := by
      cases m <;> simp_all [Message.mints, Message.concerns]
    simp [hsame, hzero]
  | mint hi hj hi' _ =>
    by_cases hs : sender = minter
    · subst hs
      have hspent := Issuer.allowanceOf_spendAllowance hj
      simp [hi, hi', Message.mints]
      omega
    · simp [hi, hi', hs, Issuer.allowanceOf_spendAllowance_of_ne (fun h => hs h.symm) hj]
  | configure hc hi _ hj hi' _ =>
    have hsame := Message.allowance_of_configures hc hj hm
    have hzero : m.mints d = 0 := by
      cases m <;> simp_all [Message.mints, Message.configures]
    simp [hi, hi', hsame, hzero]
  | accept hi hj hi' _ =>
    obtain ⟨-, rfl⟩ := Issuer.acceptAuthority_eq_ok.1 hj
    simp [hi, hi', Message.mints]
    rfl
  | admission hi hi' _ => simp [hi, hi', Message.mints, Issuer.new, Issuer.allowanceOf, Issuer.minter]

end

namespace Sample

end Sample

/-! ## The authority -/

/-- `a` has offered the authority over `d` to `b`, and nobody has offered it or withdrawn it since: the last offer
of the log, or the one the record began with. -/
def OfferStands (d : Denom) (start : Store) (log : List (Address × Message)) (a b : Address) : Prop :=
  (∃ before after, log = before ++ (a, .transferIssuerAuthority d (some b)) :: after ∧
    ∀ sender dst, (sender, .transferIssuerAuthority d dst) ∉ after) ∨
  (∀ sender dst, (sender, .transferIssuerAuthority d dst) ∉ log) ∧
    ∃ i, start.issuerOf d = some i ∧ i.authority = a ∧ i.pendingAuthority = some b

section

variable {d : Denom} {sender a b : Address} {start s s' : Store} {m : Message} {log l : List (Address × Message)}

theorem OfferStands.snoc (h : OfferStands d start log a b) (hm : ∀ dst, m ≠ .transferIssuerAuthority d dst) :
    OfferStands d start (log ++ [(sender, m)]) a b := by
  rcases h with ⟨before, after, rfl, hafter⟩ | ⟨hlog, hstart⟩
  · refine .inl ⟨before, after ++ [(sender, m)], by simp, fun x dst hx => ?_⟩
    rcases List.mem_append.1 hx with hx | hx
    · exact hafter x dst hx
    · cases List.mem_singleton.1 hx
      exact hm dst rfl
  · refine .inr ⟨fun x dst hx => ?_, hstart⟩
    rcases List.mem_append.1 hx with hx | hx
    · exact hlog x dst hx
    · cases List.mem_singleton.1 hx
      exact hm dst rfl

def PendingOffered (d : Denom) (start : Store) (log : List (Address × Message)) (s : Store) : Prop :=
  ∀ i b, s.issuerOf d = some i → i.pendingAuthority = some b → OfferStands d start log i.authority b

theorem CurrencyStep.pendingOffered (h : CurrencyStep d sender s s' m) (hs : PendingOffered d start log s) :
    PendingOffered d start (log ++ [(sender, m)]) s' := by
  intro i' b hi' hb
  cases h with
  | other hm hsame _ =>
    refine (hs i' b (hsame ▸ hi') hb).snoc fun dst hdst => ?_
    subst hdst
    simp [Message.concerns, Message.configures] at hm
  | mint hi hj hj' _ =>
    cases hj'.symm.trans hi'
    have hrest := Issuer.SameButMinters.of_spendAllowance hj
    rw [hrest.authority]
    exact (hs _ b hi (hrest.pendingAuthority ▸ hb)).snoc (by simp)
  | configure hm hi hauth hj hj' _ =>
    cases hj'.symm.trans hi'
    rcases Message.offer_of_configures hm hj with ⟨rfl, ha⟩ | ⟨hne, ha, hp⟩
    · rw [ha, hauth]
      exact .inl ⟨log, [], by rw [hb], by simp⟩
    · rw [ha]
      exact (hs _ b hi (hp ▸ hb)).snoc hne
  | accept hi hj hj' _ =>
    cases hj'.symm.trans hi'
    obtain ⟨-, rfl⟩ := Issuer.acceptAuthority_eq_ok.1 hj
    cases hb
  | admission _ hj' _ =>
    cases hj'.symm.trans hi'
    cases hb

theorem CurrencyMove.pendingOffered (h : CurrencyMove d s l s') (hs : PendingOffered d start log s) :
    PendingOffered d start (log ++ l) s' := by
  cases h with
  | quiet hi _ =>
    intro i b hi' hb
    simpa using hs i b (hi ▸ hi') hb
  | message h => exact h.pendingOffered hs

/-- The authority `a` is still in place, or `sender` has accepted an offer of it that stood. -/
def HandedOver (d : Denom) (start : Store) (log₀ log : List (Address × Message)) (a sender : Address) (s : Store) :
    Prop :=
  ∃ i, s.issuerOf d = some i ∧ (i.authority = a ∨ i.authority = sender ∧
    ∃ before after, log = before ++ (sender, .acceptIssuerAuthority d) :: after ∧
      OfferStands d start (log₀ ++ before) a sender)

theorem HandedOver.congr {log₀ : List (Address × Message)} (h : HandedOver d start log₀ log a sender s)
    {i i' : Issuer} (hi : s.issuerOf d = some i) (hi' : s'.issuerOf d = some i') (ha : i'.authority = i.authority)
    (l : List (Address × Message)) : HandedOver d start log₀ (log ++ l) a sender s' := by
  obtain ⟨i₀, hi₀, h⟩ := h
  cases hi.symm.trans hi₀
  refine ⟨i', hi', ?_⟩
  rcases h with h | ⟨h, before, after, rfl, hoffer⟩
  · exact .inl (ha.trans h)
  · exact .inr ⟨ha.trans h, before, after ++ l, by simp, hoffer⟩

theorem CurrencyStep.handedOver {log₀ : List (Address × Message)} (h : CurrencyStep d sender s s' m)
    (hp : PendingOffered d start (log₀ ++ log) s) (hs : HandedOver d start log₀ log a sender s) :
    HandedOver d start log₀ (log ++ [(sender, m)]) a sender s' := by
  cases h with
  | other _ hsame _ =>
    obtain ⟨i, hi, -⟩ := id hs
    exact hs.congr hi (hsame.trans hi) rfl _
  | mint hi hj hi' _ => exact hs.congr hi hi' (Issuer.SameButMinters.of_spendAllowance hj).authority _
  | configure hm hi _ hj hi' _ =>
    refine hs.congr hi hi' ?_ _
    rcases Message.offer_of_configures hm hj with ⟨-, ha⟩ | ⟨-, ha, -⟩ <;> exact ha
  | @accept i j hi hj hi' _ =>
    obtain ⟨hpending, rfl⟩ := Issuer.acceptAuthority_eq_ok.1 hj
    obtain ⟨i₀, hi₀, h⟩ := hs
    cases hi.symm.trans hi₀
    refine ⟨_, hi', .inr ⟨rfl, ?_⟩⟩
    rcases h with rfl | ⟨-, before, after, rfl, hoffer⟩
    · exact ⟨log, [], rfl, hp i sender hi hpending⟩
    · exact ⟨before, after ++ [(sender, .acceptIssuerAuthority d)], by simp, hoffer⟩
  | admission hnone =>
    obtain ⟨i, hi, -⟩ := hs
    simp [hi] at hnone

end

theorem executeBlocks_authority_passes_by_offer [Crypto] [StateRoot] (e : Executor)
    (blocks : List (BlockContext × List Transaction)) (start : Store) (d : Denom) :
    (∀ ctx t i, (executeBlocks e blocks start).issuerOf d = some i →
      ∃ i', (executeTx e ctx t (executeBlocks e blocks start)).1.issuerOf d = some i' ∧
        (i'.authority = i.authority ∨
          i'.authority = t.body.sender ∧ ∃ before after,
            txMessages e ctx t (executeBlocks e blocks start) =
              before ++ (t.body.sender, .acceptIssuerAuthority d) :: after ∧
            OfferStands d start (runMessages e blocks start ++ before) i.authority t.body.sender)) ∧
    ∀ ctx sender id s s', Runs (applyMessage ctx sender (.executeGovAction id)) s () s' →
      (s (.issuer d) ≠ none → s' (.issuer d) = s (.issuer d)) ∧ ∀ a, s' (.balance a d) = s (.balance a d) := by
  refine ⟨fun ctx t i hi => ?_, fun ctx sender id s s' h => ⟨fun hsome => ?_, fun a => ?_⟩⟩
  · have hpending : PendingOffered d start (runMessages e blocks start) (executeBlocks e blocks start) :=
      (executeBlocks_currency e blocks start d).invariant_nil (I := PendingOffered d start)
        (fun _ _ _ _ hs h => h.pendingOffered hs) fun i₀ b hi₀ hb => .inr ⟨by simp, i₀, hi₀, rfl, hb⟩
    have htx := (executeTx_currency e ctx t (executeBlocks e blocks start) d).invariant_nil
      (I := fun log s' => (∀ sender m, (sender, m) ∈ log → sender = t.body.sender) →
        PendingOffered d start (runMessages e blocks start ++ log) s' ∧
          HandedOver d start (runMessages e blocks start) log i.authority t.body.sender s')
      (fun log s₁ l s₂ ih h hlog => ?_) (fun _ => ⟨by simpa using hpending, i, hi, .inl rfl⟩)
    · exact (htx fun sender m hm => (sender_of_mem_txMessages hm).1).2
    · obtain ⟨hp, hs⟩ := ih fun sender m hm => hlog sender m (List.mem_append_left _ hm)
      refine ⟨by simpa using h.pendingOffered hp, ?_⟩
      cases h with
      | quiet hi _ =>
        obtain ⟨i₁, hi₁, -⟩ := id hs
        exact hs.congr hi₁ (hi.trans hi₁) rfl []
      | @message _ sender m h =>
        obtain rfl := hlog sender m (by simp)
        exact h.handedOver hp hs
  · rcases executeGovAction_issuer h with hsame | ⟨-, hnone, -⟩
    · exact hsame
    · exact absurd hnone hsome
  · exact (applyMessage_keeps.run h).1.frame (.balance a d) (by rintro (hk | hk | ⟨_, hk⟩ | ⟨_, hk⟩) <;> cases hk)

namespace Sample

def offering : List (BlockContext × List Transaction) :=
  [(⟨1, 5⟩, [sent 1 0 [.transferIssuerAuthority shilling (some (addressOf 2))]])]

/-- Account 1 offers the shilling to account 2, who takes it. -/
theorem executeBlocks_authority_passes_by_offer_offering :
    OfferStands shilling issuing (runMessages ⟨chain⟩ offering issuing) (addressOf 1) (addressOf 2) := by
  obtain ⟨i', hi', h⟩ := (executeBlocks_authority_passes_by_offer ⟨chain⟩ offering issuing shilling).1 ⟨2, 6⟩
    (sent 2 0 [.acceptIssuerAuthority shilling]) { centralBank with pendingAuthority := some (addressOf 2) }
    (by decide +kernel)
  have hrecord : (executeTx ⟨chain⟩ ⟨2, 6⟩ (sent 2 0 [.acceptIssuerAuthority shilling])
      (executeBlocks ⟨chain⟩ offering issuing)).1.issuerOf shilling =
      some { centralBank with authority := addressOf 2 } := by
    decide +kernel
  have hone : txMessages ⟨chain⟩ ⟨2, 6⟩ (sent 2 0 [.acceptIssuerAuthority shilling])
      (executeBlocks ⟨chain⟩ offering issuing) = [(addressOf 2, .acceptIssuerAuthority shilling)] := by
    decide +kernel
  cases hi'.symm.trans hrecord
  rcases h with h | ⟨-, before, after, hlog, hoffer⟩
  · exact absurd h (by decide +kernel)
  · have hlen : 1 = (before ++ (addressOf 2, .acceptIssuerAuthority shilling) :: after).length :=
      congrArg List.length (hone.symm.trans hlog)
    rw [List.length_append, List.length_cons] at hlen
    obtain rfl := List.length_eq_zero_iff.1 (show before.length = 0 by omega)
    rw [List.append_nil] at hoffer
    exact hoffer

end Sample

end AfroLink
