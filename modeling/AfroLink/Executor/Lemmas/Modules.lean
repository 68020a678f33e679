import AfroLink.Alias.Registry
import AfroLink.Gov.Governance
import AfroLink.Staking.Staking
import AfroLink.State.Lemmas.Records

/-!
# What the modules write

The footprint of every operation of the bank, the name registry, the contact bindings, governance and staking.
-/

namespace AfroLink

/-! ## Errors that report corrupt state -/

instance : StateFault BankError where
  isFault
    | .state _ => true
    | _ => false

instance : StateFault RegistryError where
  isFault
    | .corrupt _ => true
    | _ => false

instance : StateFault BindError where
  isFault
    | .corrupt _ => true
    | _ => false

instance : StateFault GovError where
  isFault
    | .corrupt _ => true
    | _ => false

instance : StateFault StakingError where
  isFault
    | .state _ => true
    | .bank e => isFault e
    | _ => false

/-! ## The cells of a module -/

namespace StoreKey

def isName : StoreKey → Bool
  | aliasName _ | aliasSkeleton _ | aliasReverse _ => true
  | _ => false

def isContact : StoreKey → Bool
  | contact _ | attestor _ => true
  | _ => false

def isGov : StoreKey → Bool
  | params | council | proposal _ | proposalIndex => true
  | _ => false

def isDocket : StoreKey → Bool
  | proposal _ | proposalIndex => true
  | _ => false

theorem isGov_of_isDocket {k : StoreKey} (h : k.isDocket = true) : k.isGov = true := by
  cases k <;> cases h <;> rfl

/-- The records of staking. The coin it holds is a balance like any other. -/
def isStake : StoreKey → Bool
  | bond _ | unbonding _ | bondIndex => true
  | _ => false

end StoreKey

variable {C : Prop} {s : Store}

/-! ## The bank -/

namespace Bank

variable {a src dst : Address} {d : Denom} {x : Amount} {F : StoreKey → Prop}

theorem balance_keeps : Keeps ⊥ C ⊤ (balance a d) s := .read .get fun _ _ => .pure trivial

theorem totalSupply_keeps : Keeps ⊥ C ⊤ (totalSupply d) s := .read .get fun _ _ => .pure trivial

theorem isFrozen_keeps : Keeps ⊥ C ⊤ (isFrozen a d) s := .read .state fun _ _ => .pure trivial

theorem writeBalance_keeps (h : F (.balance a d)) : Keeps F C ⊤ (writeBalance a d x) s :=
  .ite (fun _ => .delete h) fun _ => .set h fun _ _ => rfl

theorem writeSupply_keeps (h : F (.supply d)) : Keeps F C ⊤ (writeSupply d x) s :=
  .ite (fun _ => .delete h) fun _ => .set h fun _ _ => rfl

theorem transfer_keeps (hs : F (.balance src d)) (hd : F (.balance dst d)) :
    Keeps F C ⊤ (transfer src dst d x) s := by
  unfold transfer
  refine .guard rfl fun _ => .read isFrozen_keeps fun _ _ => .read isFrozen_keeps fun _ _ => .guard rfl fun _ =>
    .ite (fun _ => ?_) fun _ => ?_
  · exact .read balance_keeps fun b _ => .ite (fun _ => .throw rfl) fun _ => .pure trivial
  · exact .read balance_keeps fun _ _ => .read balance_keeps fun _ _ => .read (.result fun _ _ => rfl) fun _ _ =>
      .read (.result fun _ _ => rfl) fun _ _ => .bind (writeBalance_keeps hs) fun _ _ _ _ => writeBalance_keeps hd

theorem requireIssuer_keeps :
    Keeps ⊥ C (fun i => s.getDecoded (.issuer d) = .ok (some i)) (requireIssuer d) s := by
  unfold requireIssuer
  refine .guard rfl fun _ => .read .get fun v hv => ?_
  cases v with
  | none => exact .throw rfl
  | some i => exact .pure hv

theorem requireAuthority_keeps :
    Keeps ⊥ C (fun i => s.getDecoded (.issuer d) = .ok (some i)) (requireAuthority a d) s :=
  .read requireIssuer_keeps fun _ h => .guard rfl fun _ => .pure h

theorem issuer_sound {i : Issuer} (h : s.getDecoded (.issuer d) = .ok (some i)) : i.Sound :=
  Issuer.decodeError_eq_none.1 (Store.decodeError_of_read h)

theorem mint_keeps : Keeps (· ∈ [.balance dst d, .supply d, .issuer d]) C ⊤ (mint a dst d x) s := by
  unfold mint
  refine .guard rfl fun _ => .read requireIssuer_keeps fun i hi => .guard rfl fun _ => .guard rfl fun _ =>
    .read isFrozen_keeps fun _ _ => .guard rfl fun _ => .read totalSupply_keeps fun _ _ =>
    .read (.result fun _ _ => rfl) fun _ _ => .guard rfl fun _ => .read balance_keeps fun _ _ =>
    .read (.result fun _ _ => rfl) fun _ _ => ?_
  split
  · exact .throw rfl
  · rename_i j hj
    refine .bind (writeBalance_keeps (by simp)) fun _ _ _ _ => .bind (writeSupply_keeps (by simp)) fun _ _ _ _ =>
      .set (by simp) fun _ _ => ?_
    exact Issuer.decodeError_eq_none.2 ((issuer_sound hi).spendAllowance hj)

theorem burn_keeps : Keeps (· ∈ [.balance a d, .supply d]) C ⊤ (burn a d x) s := by
  unfold burn
  exact .guard rfl fun _ => .read requireIssuer_keeps fun _ _ => .guard rfl fun _ => .read isFrozen_keeps fun _ _ =>
    .guard rfl fun _ => .read balance_keeps fun _ _ => .read (.result fun _ _ => rfl) fun _ _ =>
    .read totalSupply_keeps fun _ _ => .read (.result fun _ _ => rfl) fun _ _ =>
    .bind (writeBalance_keeps (by simp)) fun _ _ _ _ => writeSupply_keeps (by simp)

theorem slashNative_keeps : Keeps (· ∈ [.balance a .native, .supply .native]) C ⊤ (slashNative a x) s := by
  unfold slashNative
  exact .guard rfl fun _ => .read balance_keeps fun _ _ => .read (.result fun _ _ => rfl) fun _ _ =>
    .read totalSupply_keeps fun _ _ => .read (.result fun _ _ => rfl) fun _ _ =>
    .bind (writeBalance_keeps (by simp)) fun _ _ _ _ => writeSupply_keeps (by simp)

theorem configure_keeps {change : Issuer → Except IssuerError Issuer}
    (h : ∀ i j, i.Sound → change i = .ok j → j.Sound) :
    Keeps (· = .issuer d) C ⊤ (configure a d change) s :=
  .read requireAuthority_keeps fun i hi => .read (.result fun _ _ => rfl) fun j hj => .set rfl fun _ _ =>
    Issuer.decodeError_eq_none.2 (h i j (issuer_sound hi) hj)

theorem setMinterAllowance_keeps {minter : Address} :
    Keeps (· = .issuer d) C ⊤ (setMinterAllowance a d minter x) s := configure_keeps fun _ _ => .setMinter

theorem transferIssuerAuthority_keeps {dst : Option Address} :
    Keeps (· = .issuer d) C ⊤ (transferIssuerAuthority a d dst) s := configure_keeps fun _ _ => .offerAuthority

theorem tightenSupplyCap_keeps : Keeps (· = .issuer d) C ⊤ (tightenSupplyCap a d x) s :=
  configure_keeps fun _ _ => .tightenCap

theorem setFreezer_keeps {freezer : Option Address} : Keeps (· = .issuer d) C ⊤ (setFreezer a d freezer) s :=
  configure_keeps fun _ _ => .withFreezer

theorem setPaused_keeps {paused : Bool} : Keeps (· = .issuer d) C ⊤ (setPaused a d paused) s :=
  configure_keeps fun _ _ => .withPaused

theorem acceptIssuerAuthority_keeps : Keeps (· = .issuer d) C ⊤ (acceptIssuerAuthority a d) s :=
  .read requireIssuer_keeps fun _ hi => .read (.result fun _ _ => rfl) fun _ hj => .set rfl fun _ _ =>
    Issuer.decodeError_eq_none.2 ((issuer_sound hi).acceptAuthority hj)

theorem registerIssuer_keeps {i : Issuer} (h : i.Sound) : Keeps (· = .issuer d) C ⊤ (registerIssuer d i) s := by
  unfold registerIssuer
  exact .guard rfl fun _ => .set rfl fun _ _ => Issuer.decodeError_eq_none.2 h

theorem admitIssuer_keeps : Keeps (· = .issuer d) C ⊤ (admitIssuer d a) s :=
  .read .get fun _ _ => .guard rfl fun _ => registerIssuer_keeps (Issuer.new_sound a)

theorem freeze_keeps {caller : Address} : Keeps (· = .frozen d a) C ⊤ (freeze caller a d) s :=
  .read requireIssuer_keeps fun _ _ => .guard rfl fun _ => .set rfl fun _ _ => rfl

theorem unfreeze_keeps {caller : Address} : Keeps (· = .frozen d a) C ⊤ (unfreeze caller a d) s :=
  .read requireIssuer_keeps fun _ _ => .guard rfl fun _ => .delete rfl

end Bank

/-! ## Names -/

theorem length_utf8Bytes (t : String) : (utf8Bytes t).length = t.utf8ByteSize := by
  simp [utf8Bytes]

theorem utf8Len_le (cs : List Char) : String.utf8Len cs ≤ 4 * cs.length := by
  induction cs with
  | nil => simp
  | cons c rest ih =>
    have := c.utf8Size_le_four
    simp only [String.utf8Len_cons, List.length_cons]
    omega

theorem Username.length_le (n : Username) : n.asStr.toList.length ≤ MAX_NAME_LEN := by
  by_contra hlong
  have h := n.wf
  simp [Username.violation, not_le.1 hlong] at h

theorem Username.tooLong_eq_none (n : Username) : tooLong (utf8Bytes n.asStr) = none := by
  rw [AfroLink.tooLong_eq_none, length_utf8Bytes]
  have h := utf8Len_le n.asStr.toList
  rw [← String.utf8ByteSize_ofList, String.ofList_toList] at h
  exact h.trans ((Nat.mul_le_mul_left 4 n.length_le).trans (by decide))

namespace Registry

variable {name : Username} {caller : Address} {now : Height}

theorem checkConfusable_keeps : Keeps ⊥ C ⊤ (checkConfusable name now) s := by
  refine .read .get fun v hv => ?_
  cases v with
  | none => exact .pure trivial
  | some holder =>
    refine .ite (fun _ => ?_) fun _ => .pure trivial
    refine .read (.result fun _ _ => rfl) fun other _ => .read .get fun r _ => ?_
    exact .ite (fun _ => .throw rfl) fun _ => .pure trivial

theorem ownedBy_keeps : Keeps ⊥ C ⊤ (ownedBy name caller now) s := by
  refine .read .get fun v hv => ?_
  cases v with
  | none => exact .throw rfl
  | some r =>
    refine .guard rfl fun _ => ?_
    generalize r.isClaimable now = claimable
    exact .guard rfl fun _ => .pure trivial

theorem dropPrimary_keeps : Keeps (·.isName) C ⊤ (dropPrimary name caller) s := by
  refine .read .get fun v _ => .ite (fun _ => ?_) fun _ => .pure trivial
  exact .delete rfl

theorem register_keeps : Keeps (·.isName) C ⊤ (register name caller now) s := by
  refine .read .get fun r _ => .guard rfl fun _ => .read checkConfusable_keeps fun _ _ => ?_
  exact .bind (.set rfl fun _ _ => rfl) fun _ _ _ _ => .set rfl fun _ _ => name.tooLong_eq_none

theorem renew_keeps : Keeps (·.isName) C ⊤ (renew name caller now) s :=
  .read ownedBy_keeps fun _ _ => .set rfl fun _ _ => rfl

theorem transfer_keeps {dst : Address} : Keeps (·.isName) C ⊤ (transfer name caller dst now) s :=
  .read ownedBy_keeps fun _ _ => .bind (.set rfl fun _ _ => rfl) fun _ _ _ _ => dropPrimary_keeps

theorem setPrimary_keeps : Keeps (·.isName) C ⊤ (setPrimary name caller now) s :=
  .read ownedBy_keeps fun _ _ => .set rfl fun _ _ => name.tooLong_eq_none

theorem clearPrimary_keeps : Keeps (·.isName) C ⊤ (clearPrimary caller) s := .delete rfl

theorem release_keeps : Keeps (·.isName) C ⊤ (release name caller now) s :=
  .read ownedBy_keeps fun _ _ => .bind (.delete rfl) fun _ _ _ _ => .bind (.delete rfl) fun _ _ _ _ =>
    dropPrimary_keeps

end Registry

/-! ## Contacts -/

namespace Bindings

variable {c : ContactCommitment} {a issuer : Address} {now : Height}

theorem requireAttestor_keeps : Keeps ⊥ C (fun r => r.decodeError = none) (requireAttestor a) s := by
  refine .read .get fun v hv => ?_
  cases v with
  | none => exact .throw rfl
  | some r => exact .pure (Store.decodeError_of_read hv)

theorem requireActiveAttestor_keeps : Keeps ⊥ C ⊤ (requireActiveAttestor a) s :=
  .read requireAttestor_keeps fun _ _ => .ite (fun _ => .throw rfl) fun _ => .pure trivial

theorem requireBound_keeps : Keeps ⊥ C ⊤ (requireBound c) s := by
  refine .read .get fun v hv => ?_
  cases v with
  | none => exact .throw rfl
  | some r => exact .pure trivial

theorem registerAttestor_keeps {r : Attestor} (h : r.decodeError = none) :
    Keeps (· = .attestor a) C ⊤ (registerAttestor a r) s := .set rfl fun _ _ => h

theorem setAttestorActive_keeps {active : Bool} : Keeps (· = .attestor a) C ⊤ (setAttestorActive a active) s :=
  .read requireAttestor_keeps fun _ h => .set rfl fun _ _ => h

theorem attest_keeps : Keeps (· = .contact c.asHash) C ⊤ (attest c a issuer now) s :=
  .read requireActiveAttestor_keeps fun _ _ => .read .get fun _ _ => .guard rfl fun _ => .set rfl fun _ _ => rfl

theorem requestRebind_keeps {delay : U64} : Keeps (· = .contact c.asHash) C ⊤ (requestRebind delay c a issuer now) s :=
  .read requireActiveAttestor_keeps fun _ _ => .read requireBound_keeps fun _ _ => .guard rfl fun _ =>
    .set rfl fun _ _ => rfl

theorem vetoRebind_keeps : Keeps (· = .contact c.asHash) C ⊤ (vetoRebind c a) s :=
  .read requireBound_keeps fun _ _ => .guard rfl fun _ => .guard rfl fun _ => .set rfl fun _ _ => rfl

theorem applyRebind_keeps : Keeps (· = .contact c.asHash) C ⊤ (applyRebind c now) s := by
  refine .read requireBound_keeps fun r _ => ?_
  split
  · exact .throw rfl
  · exact .guard rfl fun _ => .bind (.set rfl fun _ _ => rfl) fun _ _ _ _ => .pure trivial

theorem revoke_keeps : Keeps (· = .contact c.asHash) C ⊤ (revoke c a) s :=
  .read requireBound_keeps fun _ _ => .guard rfl fun _ => .delete rfl

end Bindings

/-! ## Governance -/

theorem GovProposal.decodeError_eq_none {p : GovProposal} :
    p.decodeError = none ↔
      p.action.decodeError = none ∧ p.votes.length ≤ MAX_FIELD_LEN ∧ p.votes.Pairwise (· < ·) := by
  simp [decodeError, List.isChain_iff_pairwise]

namespace Governance

variable {id : U64} {now : Height}

theorem params_keeps : Keeps ⊥ C ⊤ params s := .read .get fun _ _ => .pure trivial

theorem queue_keeps : Keeps ⊥ C (fun q => q.open_.length ≤ MAX_FIELD_LEN) queue s := by
  refine .read .get fun v hv => .pure ?_
  cases v with
  | none => simp
  | some q => exact tooLong_eq_none.1 (Store.decodeError_of_read hv)

theorem requireCouncil_keeps : Keeps ⊥ C ⊤ requireCouncil s := by
  refine .read .get fun v hv => ?_
  cases v with
  | none => exact .throw rfl
  | some c => exact .pure trivial

theorem requireProposal_keeps :
    Keeps ⊥ C (fun p => s.getDecoded (.proposal id) = .ok (some p)) (requireProposal id) s := by
  refine .read .get fun v hv => ?_
  cases v with
  | none => exact .throw rfl
  | some p => exact .pure hv

theorem setCouncil_keeps {c : Council} : Keeps (· = .council) C ⊤ (setCouncil c) s :=
  .read params_keeps fun _ _ => .read (.result fun _ _ => rfl) fun _ _ => .set rfl fun _ _ => rfl

theorem setParams_keeps {p : ChainParams} : Keeps (· = .params) C ⊤ (setParams p) s := by
  refine .read params_keeps fun _ _ => .read (.result fun _ _ => rfl) fun _ _ => .read .get fun c _ => ?_
  cases c with
  | none => exact .set rfl fun _ _ => rfl
  | some c => exact .read (.result fun _ _ => rfl) fun _ _ => .set rfl fun _ _ => rfl

theorem remove_keeps : Keeps (·.isDocket) C ⊤ (remove id) s := by
  refine .bind (.delete rfl) fun _ s' _ _ => .read queue_keeps fun q hq => .set rfl fun _ _ => ?_
  exact tooLong_eq_none.2 ((List.length_filter_le _ _).trans hq)

theorem sweepIds_keeps {ids : List U64} :
    Keeps (·.isDocket) C (fun kept => kept.length ≤ ids.length) (sweepIds now ids) s := by
  induction ids generalizing s with
  | nil => exact .pure (le_refl 0)
  | cons id rest ih =>
    have hskip : ∀ {s}, Keeps (·.isDocket) C (fun kept => kept.length ≤ (id :: rest).length) (sweepIds now rest) s :=
      ih.mono (fun _ h => h) fun _ h => h.trans (Nat.le_succ _)
    refine .read .get fun p hp => ?_
    cases p with
    | none => exact hskip
    | some p =>
      refine .ite (fun _ => .bind ih fun kept _ _ hk => .pure ?_) fun _ => .bind (.delete rfl) fun _ _ _ _ => hskip
      simpa using hk

theorem sweepLapsed_keeps : Keeps (·.isDocket) C ⊤ (sweepLapsed now) s := by
  refine .read queue_keeps fun q hq => .bind sweepIds_keeps fun kept _ _ hk => ?_
  exact .bind (.set rfl fun _ _ => tooLong_eq_none.2 (hk.trans hq)) fun _ _ _ _ => .pure trivial

theorem checkAction_keeps {action : GovAction} : Keeps ⊥ C ⊤ (checkAction action) s := by
  cases action with
  | setCouncil c => exact .read params_keeps fun _ _ => (.mono (.result fun _ _ => rfl) (fun _ => id) fun _ _ => trivial)
  | setParams p => exact .read params_keeps fun _ _ => (.mono (.result fun _ _ => rfl) (fun _ => id) fun _ _ => trivial)
  | cancel id =>
    exact .read requireProposal_keeps fun _ _ => .ite (fun _ => .throw rfl) fun _ => .pure trivial
  | licenseAttestor | setAttestorActive | admitDenom => exact .pure trivial

theorem propose_keeps {sender : Address} {action : GovAction} (h : C → action.decodeError = none) :
    Keeps (·.isDocket) C ⊤ (propose sender action now) s := by
  refine .read requireCouncil_keeps fun c _ => .guard rfl fun _ => .read (.result fun _ _ => rfl) fun _ _ =>
    .read checkAction_keeps fun _ _ => .bind sweepLapsed_keeps fun q s' _ _ => .guard rfl fun hq =>
    .read params_keeps fun p _ => .bind (.set rfl fun _ _ => ?_) fun _ _ _ _ => .bind (.set rfl fun hc _ => ?_)
      fun _ _ _ _ => .pure trivial
  · refine tooLong_eq_none.2 ?_
    have : q.open_.length < MAX_OPEN_PROPOSALS := not_le.1 hq
    simp only [List.length_append, List.length_singleton]
    exact Nat.succ_le_of_lt (this.trans (by decide))
  · exact GovProposal.decodeError_eq_none.2 ⟨h hc, by simp, .nil⟩

theorem recordVote_sound {p p' : GovProposal} {seat : Address} (hp : p.decodeError = none)
    (hlen : p.votes.length < MAX_FIELD_LEN) (h : p.recordVote seat = some p') : p'.decodeError = none := by
  unfold GovProposal.recordVote at h
  split_ifs at h with hnew
  cases h
  obtain ⟨ha, -, hs⟩ := GovProposal.decodeError_eq_none.1 hp
  refine GovProposal.decodeError_eq_none.2 ⟨ha, ?_, hs.orderedInsert_lt (fun x => x) fun x hx hxs => hnew (hxs ▸ hx)⟩
  simpa [List.orderedInsert_length] using hlen

theorem vote_keeps {sender : Address}
    (h : C → ∀ p, s.getDecoded (.proposal id) = .ok (some p) → p.votes.length < MAX_FIELD_LEN) :
    Keeps (·.isDocket) C ⊤ (vote sender id now) s := by
  refine .read requireCouncil_keeps fun c _ => .guard rfl fun _ => .read requireProposal_keeps fun p hp =>
    .guard rfl fun _ => .guard rfl fun _ => ?_
  split
  · exact .throw rfl
  · rename_i p' hp'
    have hsound : C → p'.decodeError = none := fun hc =>
      recordVote_sound (Store.decodeError_of_read hp) (h hc p hp) hp'
    refine .ite (fun _ => .bind (.set rfl fun hc _ => hsound hc) fun _ _ _ _ => .pure trivial) fun _ => ?_
    split
    · exact .bind remove_keeps fun _ _ _ _ => .bind remove_keeps fun _ _ _ _ => .pure trivial
    · exact .read params_keeps fun _ _ => .bind (.set rfl fun hc _ => hsound hc) fun _ _ _ _ => .pure trivial

theorem execute_keeps : Keeps (·.isDocket) C (fun action => action.decodeError = none) (execute id now) s := by
  refine .read requireProposal_keeps fun p hp => ?_
  split
  · exact .throw rfl
  · refine .guard rfl fun _ => .bind remove_keeps fun _ _ _ _ => .pure ?_
    exact (GovProposal.decodeError_eq_none.1 (Store.decodeError_of_read hp)).1

end Governance

/-! ## Staking -/

namespace Staking

variable {operator : Address} {amount : Amount} {F : StoreKey → Prop}

theorem requireBond_keeps : Keeps ⊥ C ⊤ (requireBond operator) s := by
  refine .read .get fun v hv => ?_
  cases v with
  | none => exact .throw rfl
  | some b => exact .pure trivial

theorem unbondingOf_keeps :
    Keeps ⊥ C (fun queue => queue = [] ∨ s.getDecoded (.unbonding operator) = .ok (some queue))
      (unbondingOf operator) s := by
  refine .read .get fun v hv => .pure ?_
  cases v with
  | none => exact .inl rfl
  | some queue => exact .inr hv

theorem candidates_keeps :
    Keeps ⊥ C (fun index => index = [] ∨ s.getDecoded .bondIndex = .ok (some index)) candidates s := by
  refine .read .get fun v hv => .pure ?_
  cases v with
  | none => exact .inl rfl
  | some index => exact .inr hv

theorem length_le_of_read {k : StoreKey} {α : Type} {l : List α} {v : k.Value}
    (h : l = [] ∨ s.getDecoded k = .ok (some v)) (hv : k.decodeError v = tooLong l) : l.length ≤ MAX_FIELD_LEN := by
  rcases h with rfl | h
  · simp
  · exact tooLong_eq_none.1 (hv.symm.trans (Store.decodeError_of_read h))

theorem collectBonds_keeps {operators : List Address} : Keeps ⊥ C ⊤ (collectBonds operators) s := by
  induction operators with
  | nil => exact .pure trivial
  | cons operator rest ih => exact .read .get fun _ _ => .read ih fun _ _ => .pure trivial

theorem writeQueue_keeps {queue : List Unbonding} (hF : F (.unbonding operator))
    (h : C → queue.length ≤ MAX_FIELD_LEN) : Keeps F C ⊤ (writeQueue operator queue) s :=
  .ite (fun _ => .delete hF) fun _ => .set hF fun hc _ => tooLong_eq_none.2 (h hc)

theorem writeBond_keeps {b : Bond} (hF : F (.bond b.operator)) : Keeps F C ⊤ (writeBond b) s := .set hF fun _ _ => rfl

theorem length_slashQueue {h : Height} {queue queue' : List Unbonding} {taken taken' : Amount}
    (hq : slashQueue h queue taken = .ok (queue', taken')) : queue'.length = queue.length := by
  induction queue generalizing queue' taken taken' with
  | nil =>
    cases hq
    rfl
  | cons entry rest ih =>
    unfold slashQueue at hq
    split at hq
    · obtain ⟨⟨rest', t⟩, hr, hq⟩ := Except.bind_eq_ok.1 hq
      cases hq
      simp [ih hr]
    · obtain ⟨left, -, hq⟩ := Except.bind_eq_ok.1 hq
      obtain ⟨sum, -, hq⟩ := Except.bind_eq_ok.1 hq
      obtain ⟨⟨rest', t⟩, hr, hq⟩ := Except.bind_eq_ok.1 hq
      cases hq
      simp [ih hr]

variable [Crypto] {params : StakingParams}

/-- The records of staking and the coin moved between the operator and the module account. -/
def Cells (operator : Address) (k : StoreKey) : Prop :=
  k.isStake ∨ k = .balance operator .native ∨ k = .balance stakingAccount .native

theorem activeSet_not_fault {bonds : List Bond} {e : StakingError} (h : activeSet bonds params = .error e) :
    isFault e = false := by
  unfold activeSet at h
  simp only at h
  split at h
  · cases h
    rfl
  · split at h
    · cases h
    · cases h
      rfl

theorem currentSet_keeps : Keeps ⊥ C ⊤ (currentSet params) s :=
  .read (.read candidates_keeps fun _ _ => collectBonds_keeps) fun _ _ =>
    .mono (.result fun _ => activeSet_not_fault) (fun _ => id) fun _ _ => trivial

omit [Crypto] in
theorem moveStake_keeps {src dst : Address} (hs : F (.balance src .native)) (hd : F (.balance dst .native)) :
    Keeps F C ⊤ (moveStake src dst amount) s := .mapErr (fun _ => rfl) (Bank.transfer_keeps hs hd)

theorem bond_keeps {publicKey : PublicKey} {country : CountryCode}
    (h : C → ∀ index, s.getDecoded .bondIndex = .ok (some index) → index.length < MAX_FIELD_LEN) :
    Keeps (Cells operator) C ⊤ (bond params operator publicKey country amount) s := by
  unfold bond
  refine .guard rfl fun _ => .guard rfl fun _ => .read (.mono .get (fun _ => id) fun _ _ => trivial) fun _ _ =>
    .guard rfl fun _ => .read candidates_keeps fun index hindex => .guard rfl fun _ =>
    .bind (moveStake_keeps (.inr (.inl rfl)) (.inr (.inr rfl))) fun _ _ _ _ =>
    .bind (writeBond_keeps (.inl rfl)) fun _ _ _ _ => .set (.inl rfl) fun hc _ => tooLong_eq_none.2 ?_
  have hlen : index.length < MAX_FIELD_LEN := by
    rcases hindex with rfl | hindex
    · decide
    · exact h hc index hindex
  simpa using hlen

theorem addStake_keeps : Keeps (Cells operator) C ⊤ (addStake operator amount) s := by
  unfold addStake
  exact .guard rfl fun _ => .read requireBond_keeps fun b _ =>
    .bind (moveStake_keeps (.inr (.inl rfl)) (.inr (.inr rfl))) fun _ _ _ _ => .read (.result fun _ _ => rfl)
      fun _ _ => writeBond_keeps (.inl rfl)

omit [Crypto] in
theorem unbond_keeps {height : Height} {now : Timestamp}
    (h : C → ∀ queue, s.getDecoded (.unbonding operator) = .ok (some queue) → queue.length < MAX_FIELD_LEN) :
    Keeps (·.isStake) C ⊤ (unbond params operator amount height now) s := by
  unfold unbond
  refine .guard rfl fun _ => .read requireBond_keeps fun b _ => .guard rfl fun _ => .read unbondingOf_keeps
    fun queue hqueue => .guard rfl fun _ => .read (.result fun _ _ => rfl) fun _ _ =>
    .bind (writeBond_keeps rfl) fun _ _ _ _ => writeQueue_keeps rfl fun hc => ?_
  have hlen : queue.length < MAX_FIELD_LEN := by
    rcases hqueue with rfl | hqueue
    · decide
    · exact h hc queue hqueue
  simpa using hlen

theorem withdraw_keeps {now : Timestamp} : Keeps (Cells operator) C ⊤ (withdraw operator now) s := by
  refine .read unbondingOf_keeps fun queue hqueue => .guard rfl fun _ => .read (.result fun _ _ => rfl) fun _ _ =>
    .bind (writeQueue_keeps (.inl rfl) fun _ => ?_) fun _ _ _ _ => .ite (fun _ => ?_) fun _ => .pure trivial
  · exact (List.length_filter_le _ _).trans (length_le_of_read hqueue rfl)
  · exact .bind (moveStake_keeps (.inr (.inr rfl)) (.inr (.inl rfl))) fun _ _ _ _ => .pure trivial

/-- Slashing takes from the module account and from the supply. -/
def Slashed (k : StoreKey) : Prop := k.isStake ∨ k = .balance stakingAccount .native ∨ k = .supply .native

theorem slash_keeps {infraction now : Height} : Keeps Slashed C ⊤ (slash operator infraction now) s := by
  refine .read requireBond_keeps fun b _ => .guard rfl fun _ => .read unbondingOf_keeps fun queue hqueue =>
    .read (.result fun _ _ => rfl) fun r hr => .read (.result fun _ _ => rfl) fun _ _ =>
    .read (.result fun _ _ => rfl) fun _ _ => .bind (writeBond_keeps (.inl rfl)) fun _ _ _ _ =>
    .bind (writeQueue_keeps (.inl rfl) fun _ => ?_) fun _ _ _ _ => .ite (fun _ => ?_) fun _ => .pure trivial
  · exact (length_slashQueue hr).trans_le (length_le_of_read hqueue rfl)
  · refine .bind (.mapErr (fun _ => rfl) (Bank.slashNative_keeps.mono (fun k hk => ?_) fun _ => id)) fun _ _ _ _ =>
      .pure trivial
    exact .inr (by simpa using hk)

theorem slashEquivocation_keeps {evidence : Equivocation} {set : ValidatorSet} {height : Height} :
    Keeps Slashed C ⊤ (slashEquivocation evidence set height) s := by
  unfold slashEquivocation
  exact .guard rfl fun _ => slash_keeps

end Staking

end AfroLink
