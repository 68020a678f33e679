import AfroLink.Executor.Executor
import AfroLink.Executor.Lemmas.Modules
import AfroLink.State.Lemmas.Groups

/-!
# What a message writes

One lemma a function, down to the message dispatcher: the cells a message may change, and the condition under
which every record it stores can be read back.
-/

namespace AfroLink

instance : StateFault ExecError where
  isFault
    | .state _ => true
    | .bank e => isFault e
    | .staking e => isFault e
    | .registry e => isFault e
    | .bind e => isFault e
    | .gov e => isFault e
    | _ => false

/-! ## Sound account records -/

theorem Account.decodeError_eq_none {a : Account} :
    a.decodeError = none ↔ a.kind.decodeError = none ∧ a.hasAUsableAuthority = true := by
  simp [decodeError]

theorem Account.individual_sound (a : Address) : (Account.individual a).Sound := ⟨rfl, nofun⟩

theorem Account.group_sound {a : Account} {g : GroupAccount} (ha : a.hasAUsableAuthority = true) (hg : g.Sound) :
    Account.Sound { a with kind := .group g } := by
  obtain ⟨hd, happ⟩ := GroupAccount.sound_iff.1 hg
  refine ⟨Account.decodeError_eq_none.2 ⟨hd, ha⟩, ?_⟩
  rintro g' p ⟨⟩ hp
  exact happ p hp

theorem Account.Sound.group {a : Account} {g : GroupAccount} (h : a.Sound) (hg : a.asGroup = some g) :
    a.hasAUsableAuthority = true ∧ g.Sound := by
  obtain ⟨hkind, hauth⟩ := Account.decodeError_eq_none.1 h.decodes
  refine ⟨hauth, GroupAccount.sound_iff.2 ⟨?_, fun p hp => h.approvals g p hg hp⟩⟩
  unfold Account.asGroup at hg
  split at hg
  · rename_i g' hk
    cases hg
    rw [hk] at hkind
    exact hkind
  · cases hg

namespace Exec

variable {C : Prop} {F : StoreKey → Prop} {s : Store} {sender : Address}

/-! ## Accounts -/

variable {a group : Address} {d : Denom} {g : GroupAccount}

theorem loadAccount_keeps :
    Keeps ⊥ C (fun r => s.getDecoded (.account a) = .ok (some r) ∨ r = Account.individual a) (loadAccount a) s := by
  refine .read .get fun v hv => .pure ?_
  cases v with
  | none => exact .inr rfl
  | some r => exact .inl hv

theorem sound_of_load {r : Account} (hs : s.Sound)
    (h : s.getDecoded (.account a) = .ok (some r) ∨ r = Account.individual a) : r.Sound := by
  rcases h with h | rfl
  · exact hs.of_read h
  · exact Account.individual_sound a

theorem changeAccount_keeps {change : Account → Except ExecError Account} (hF : F (.account sender))
    (hkind : ∀ a a', change a = .ok a' → a'.kind = a.kind)
    (hfault : ∀ a e, change a = .error e → isFault e = false) : Keeps F C ⊤ (changeAccount sender change) s := by
  refine .read loadAccount_keeps fun a ha => .read (.result (hfault a)) fun a' ha' => .guard rfl fun hauth =>
    .set hF fun _ hs => ?_
  have h := sound_of_load hs ha
  have hk := hkind a a' ha'
  refine ⟨Account.decodeError_eq_none.2 ⟨?_, by simpa using hauth⟩, ?_⟩
  · rw [hk]
    exact (Account.decodeError_eq_none.1 h.decodes).1
  · unfold Account.asGroup
    rw [hk]
    exact h.approvals

theorem ensureAccount_keeps (hF : F (.account a)) : Keeps F C ⊤ (ensureAccount a) s :=
  .read .state fun _ _ => .ite (fun _ => .set hF fun _ _ => Account.individual_sound a) fun _ => .pure trivial

theorem ensureAccount_frame {s' : Store} {k : StoreKey} (h : Runs (ensureAccount a) s () s') (hk : k ≠ .account a) :
    s' k = s k := (ensureAccount_keeps (F := (· = .account a)) rfl).frame h hk

theorem paramsOf_keeps : Keeps ⊥ C ⊤ paramsOf s := .mapErr (fun _ => rfl) Governance.params_keeps

theorem staking_keeps {α : Type} {op : StakingParams → Staking.M α} {P : α → Prop}
    (h : ∀ p, Keeps F C P (op p) s) : Keeps F C P (staking op) s :=
  .read paramsOf_keeps fun p _ => .mapErr (fun _ => rfl) (h p.staking)

/-! ## Groups -/

/-- What is loaded is the record of a group that `sender` belongs to. -/
structure Loads (s : Store) (sender group : Address) (r : Account × GroupAccount) : Prop where
  read : s.getDecoded (.account group) = .ok (some r.1)
  group : r.1.asGroup = some r.2
  member : r.2.isMember sender = true

theorem loadGroup_keeps : Keeps ⊥ C (Loads s sender group) (loadGroup sender group) s := by
  refine .read (P := fun a => s.getDecoded (.account group) = .ok (some a)) ?_ fun a ha => ?_
  · refine .read .get fun v hv => ?_
    cases v with
    | none => exact .throw rfl
    | some a => exact .pure hv
  · split
    · exact .throw rfl
    · exact .guard rfl fun hm => .pure ⟨ha, ‹_›, by simpa using hm⟩

theorem writeGroup_keeps {a : Account} (hF : F (.account group))
    (h : C → s.Sound → a.hasAUsableAuthority = true ∧ g.Sound) : Keeps F C ⊤ (writeGroup group a g) s :=
  .set hF fun hc hs => Account.group_sound (h hc hs).1 (h hc hs).2

theorem bankTransfer_keeps {src dst : Address} {x : Amount} (hs : F (.balance src d))
    (hd : F (.balance dst d)) : Keeps F C ⊤ (bankTransfer src dst d x) s :=
  .mapErr (fun _ => rfl) (Bank.transfer_keeps hs hd)

theorem groupBalance_keeps : Keeps ⊥ C ⊤ (groupBalance group g) s :=
  .mapErr (fun _ => rfl) Bank.balance_keeps

theorem payAll_keeps {src : Address} {payments : List (Address × Amount)}
    (h : ∀ a, F (.balance a d)) : Keeps F C ⊤ (payAll src d payments) s := by
  induction payments generalizing s with
  | nil => exact .pure trivial
  | cons p rest ih => exact .bind (bankTransfer_keeps (h _) (h _)) fun _ _ _ _ => ih

theorem payThenWrite_keeps {a : Account} {g' : GroupAccount} {pay : ExecM Unit}
    (hF : F (.account group)) (hload : Loads s sender group (a, g))
    (hpay : Keeps F C ⊤ pay s) (h : C → g.Sound → g'.Sound) :
    Keeps F C ⊤ (pay >>= fun _ => writeGroup group a g') s := by
  refine .bind_sound hpay fun _ s' _ _ => writeGroup_keeps hF fun hc _ => ?_
  obtain ⟨hauth, hg⟩ := Account.Sound.group (hc.2.of_read hload.read) hload.group
  exact ⟨hauth, h hc.1 hg⟩

theorem writeBack_keeps {a : Account} {g' : GroupAccount} (hF : F (.account group))
    (hload : Loads s sender group (a, g)) (h : C → g.Sound → g'.Sound) :
    Keeps F C ⊤ (writeGroup group a g') s := by
  refine writeGroup_keeps hF fun hc hs => ?_
  obtain ⟨hauth, hg⟩ := Account.Sound.group (hs.of_read hload.read) hload.group
  exact ⟨hauth, h hc hg⟩

/-- The group's record, and the money moved between it and the sender. -/
def Contributes (sender group : Address) (k : StoreKey) : Prop :=
  k = .account group ∨ ∃ d, k = .balance sender d ∨ k = .balance group d

/-- The group's record, and money of anyone: whom a payout goes to is in the record. -/
def PaysOut (group : Address) (k : StoreKey) : Prop := k = .account group ∨ ∃ a d, k = .balance a d

section Groups

variable {group : Address} {height : Height} {amount : Amount}

theorem contributeToGroup_keeps : Keeps (Contributes sender group) C ⊤ (contributeToGroup sender group amount) s :=
  .read loadGroup_keeps fun _ hr => .guard rfl fun _ => .read (.result fun _ _ => rfl) fun _ hg =>
    payThenWrite_keeps (.inl rfl) hr (bankTransfer_keeps (.inr ⟨_, .inl rfl⟩) (.inr ⟨_, .inr rfl⟩))
      fun _ h => h.recordContribution hg

theorem buyShares_keeps {shares : U32} : Keeps (Contributes sender group) C ⊤ (buyShares sender group shares) s :=
  .read loadGroup_keeps fun _ hr => .read (.result fun _ _ => rfl) fun _ hg =>
    payThenWrite_keeps (.inl rfl) hr (bankTransfer_keeps (.inr ⟨_, .inl rfl⟩) (.inr ⟨_, .inr rfl⟩))
      fun _ h => h.buyShares hg

theorem paySocialFund_keeps : Keeps (Contributes sender group) C ⊤ (paySocialFund sender group) s :=
  .read loadGroup_keeps fun _ hr => .read (.result fun _ _ => rfl) fun _ hg =>
    payThenWrite_keeps (.inl rfl) hr (bankTransfer_keeps (.inr ⟨_, .inl rfl⟩) (.inr ⟨_, .inr rfl⟩))
      fun _ h => h.paySocial hg

theorem repayLoan_keeps : Keeps (Contributes sender group) C ⊤ (repayLoan sender group amount) s :=
  .read loadGroup_keeps fun _ hr => .read (.result fun _ _ => rfl) fun _ hg =>
    payThenWrite_keeps (.inl rfl) hr (bankTransfer_keeps (.inr ⟨_, .inl rfl⟩) (.inr ⟨_, .inr rfl⟩))
      fun _ h => h.repay hg

theorem proposeGroupAction_keeps {beneficiary : Address} {kind : GroupProposalKind} :
    Keeps (· = .account group) C ⊤ (proposeGroupAction sender group beneficiary kind) s :=
  .read loadGroup_keeps fun _ hr => .read groupBalance_keeps fun _ _ => .read (.result fun _ _ => rfl) fun _ hg =>
    writeBack_keeps rfl hr fun _ h => h.openProposal hg

theorem closeCycle_keeps : Keeps (· = .account group) C ⊤ (closeCycle height sender group) s :=
  .read loadGroup_keeps fun _ hr => .read (.result fun _ _ => rfl) fun _ _ => .guard rfl fun _ =>
    writeBack_keeps rfl hr fun _ h => h.advanceCycle height

theorem groupPayout_keeps : Keeps (PaysOut group) C ⊤ (groupPayout height sender group) s := by
  refine .read loadGroup_keeps fun ⟨a, g⟩ hr => ?_
  dsimp only
  split
  · exact .throw rfl
  · exact .guard rfl fun _ => .read groupBalance_keeps fun _ _ => .guard rfl fun _ =>
      payThenWrite_keeps (.inl rfl) hr (bankTransfer_keeps (.inr ⟨_, _, rfl⟩) (.inr ⟨_, _, rfl⟩))
        fun _ h => h.advanceCycle height

theorem shareOut_keeps : Keeps (PaysOut group) C ⊤ (shareOut sender group) s :=
  .read loadGroup_keeps fun _ hr => .read groupBalance_keeps fun _ _ => .read (.result fun _ _ => rfl) fun _ _ =>
    .read (.result fun _ _ => rfl) fun _ hg =>
      payThenWrite_keeps (.inl rfl) hr (payAll_keeps fun _ => .inr ⟨_, _, rfl⟩) fun _ h => h.shareOut hg

theorem sound_of_carryOut {g g' : GroupAccount} {b x : Amount} {payee : Address} (h : g.Sound)
    (hfits : g.pendingLoanFits = true) (hg : carryOut g b = .ok (g', payee, x)) : g'.Sound := by
  unfold carryOut at hg
  split at hg
  · cases hg
  · split at hg
    · exact h.issueLoan hfits hg
    · exact h.issueGrant hg

/-- An approval that carries out a loan carries out one whose total is an amount. -/
def loanFits (sender group : Address) (s : Store) : Bool :=
  match s.getDecoded (.account group) with
  | .ok (some a) =>
    a.asGroup.all fun g =>
      match g.approve sender with
      | .ok (g', true) => g'.pendingLoanFits
      | _ => true
  | _ => true

theorem approveGroupAction_keeps (h : C → loanFits sender group s = true) :
    Keeps (PaysOut group) C ⊤ (approveGroupAction sender group) s := by
  refine .read loadGroup_keeps fun ⟨a, g⟩ hr => .read groupBalance_keeps fun b _ =>
    .read (.result fun _ _ => rfl) fun ⟨g', passed⟩ hg => .ite (fun hp => ?_) fun _ => ?_
  · have hfits : C → g'.pendingLoanFits = true := by
      intro hc
      have hl := h hc
      cases hp
      simpa [loanFits, hr.read, hr.group, hg] using hl
    exact .read (.result fun _ _ => rfl) fun _ hcarry =>
      payThenWrite_keeps (.inl rfl) hr (bankTransfer_keeps (.inr ⟨_, _, rfl⟩) (.inr ⟨_, _, rfl⟩))
        fun hc hs => sound_of_carryOut (hs.approve hg) (hfits hc) hcarry
  · exact writeBack_keeps (.inl rfl) hr fun _ hs => hs.approve hg

end Groups

section

variable [Crypto]

theorem createGroup_keeps {height : Height} {name : String} {members : List FoundingMember}
    {contribution : Contribution} {policy : PayoutPolicy} {quorum : Quorum} :
    Keeps (fun k => ∃ seed, k = .account (Address.derived .groupAddress seed)) C ⊤
      (createGroup height sender name members contribution policy quorum) s := by
  refine .read loadAccount_keeps fun creator _ => .read (.result fun _ _ => rfl) fun g hg =>
    .read loadAccount_keeps fun account ha => ?_
  split
  · refine writeGroup_keeps ⟨_, rfl⟩ fun _ hs => ⟨?_, ?_⟩
    · exact (Account.decodeError_eq_none.1 (sound_of_load hs ha).decodes).2
    · refine GroupAccount.new_sound (fun m hm => ?_) hg
      obtain ⟨f, -, rfl⟩ := List.mem_map.1 hm
      rfl
  · exact .throw rfl

theorem setRegularKey_kind {key : Option PublicKey} {a a' : Account} (h : setRegularKey key a = .ok a') :
    a'.kind = a.kind := by
  unfold setRegularKey at h
  split_ifs at h
  cases h
  rfl

theorem setRegularKey_not_fault {key : Option PublicKey} {a : Account} {e : ExecError}
    (h : setRegularKey key a = .error e) : isFault e = false := by
  unfold setRegularKey at h
  split_ifs at h
  cases h
  rfl

end

/-! ## Messages -/

theorem transfer_keeps {dst : Address} {x : Amount} {reference : Option PaymentReference} :
    Keeps (· ∈ [.balance sender d, .balance dst d, .account dst]) C ⊤ (transfer sender dst d x reference) s :=
  .read loadAccount_keeps fun _ _ => .guard rfl fun _ =>
    .bind (bankTransfer_keeps (by simp) (by simp)) fun _ _ _ _ => ensureAccount_keeps (by simp)

/-- The cells an action of the council may change besides those of governance. -/
def GovernedCell (k : StoreKey) : Prop := k.isGov ∨ k.isContact ∨ (∃ d, k = .issuer d) ∨ ∃ a, k = .account a

theorem applyGovAction_keeps {action : GovAction} (h : action.decodeError = none) :
    Keeps GovernedCell C ⊤ (applyGovAction action) s := by
  have hattestor : ∀ (a : Address) (k : StoreKey), k = .attestor a → GovernedCell k := by
    rintro a k rfl
    exact .inr (.inl rfl)
  cases action with
  | setCouncil c =>
    refine .mapErr (fun _ => rfl) (Governance.setCouncil_keeps.mono ?_ fun _ => id)
    rintro k rfl
    exact .inl rfl
  | setParams p =>
    refine .mapErr (fun _ => rfl) (Governance.setParams_keeps.mono ?_ fun _ => id)
    rintro k rfl
    exact .inl rfl
  | licenseAttestor a r =>
    exact .bind (.mapErr (fun _ => rfl) ((Bindings.registerAttestor_keeps h).mono (hattestor a) fun _ => id))
      fun _ _ _ _ => ensureAccount_keeps (.inr (.inr (.inr ⟨a, rfl⟩)))
  | setAttestorActive a active =>
    exact .mapErr (fun _ => rfl) (Bindings.setAttestorActive_keeps.mono (hattestor a) fun _ => id)
  | admitDenom d authority =>
    refine .bind (.mapErr (fun _ => rfl) (Bank.admitIssuer_keeps.mono (fun k hk => ?_) fun _ => id))
      fun _ _ _ _ => ensureAccount_keeps (.inr (.inr (.inr ⟨authority, rfl⟩)))
    exact .inr (.inr (.inl ⟨d, hk⟩))
  | cancel id => exact .throw rfl

variable [Crypto]

theorem reportEquivocation_keeps {height : Height} {evidence : Equivocation} :
    Keeps Staking.Slashed C ⊤ (reportEquivocation height evidence) s :=
  .read (staking_keeps fun _ => Staking.currentSet_keeps) fun _ _ =>
    .bind (staking_keeps fun _ => Staking.slashEquivocation_keeps) fun _ _ _ _ => .pure trivial

end Exec

section

variable [Crypto]

def Message.MayWrite (sender : Address) (k : StoreKey) : Message → Prop
  | .transfer dst d _ _ => k ∈ [.balance sender d, .balance dst d, .account dst]
  | .createGroup .. => ∃ seed, k = .account (Address.derived .groupAddress seed)
  | .contributeToGroup group _ | .buyShares group _ | .paySocialFund group | .repayLoan group _ =>
    Exec.Contributes sender group k
  | .groupPayout group | .approveGroupAction group | .shareOut group => Exec.PaysOut group k
  | .proposeGroupAction group _ _ | .closeCycle group => k = .account group
  | .registerName _ | .renewName _ | .setPrimaryAlias _ | .clearPrimaryAlias | .releaseName _ => k.isName
  | .transferName _ dst => k.isName ∨ k = .account dst
  | .attestContact _ address => k.isContact ∨ k = .account address
  | .applyRebind _ => k.isContact ∨ ∃ a, k = .account a
  | .requestRebind .. | .vetoRebind _ | .revokeContact _ => k.isContact
  | .bond .. | .addStake _ | .withdrawUnbonded => Staking.Cells sender k
  | .unbond _ => k.isStake
  | .reportEquivocation _ => Staking.Slashed k
  | .setAccountFlag .. | .setRegularKey _ | .setSignerList _ => k = .account sender
  | .mint d dst _ => k ∈ [.balance dst d, .supply d, .issuer d]
  | .burn d _ => k ∈ [.balance sender d, .supply d]
  | .setMinterAllowance d _ _ | .setIssuerPaused d _ | .setSupplyCap d _ | .setFreezer d _
  | .acceptIssuerAuthority d => k = .issuer d
  | .transferIssuerAuthority d dst => k = .issuer d ∨ ∃ a, dst = some a ∧ k = .account a
  | .setFrozen d account _ => k = .frozen d account
  | .proposeGovAction _ | .voteGovAction _ => k.isGov
  | .executeGovAction _ => Exec.GovernedCell k

end

/-- The family a cell belongs to. -/
inductive CellKind where
  | account | balance | supply | issuer | frozen | name | contact | stake | gov
deriving DecidableEq

namespace StoreKey

@[simp] def kind : StoreKey → CellKind
  | account _ => .account
  | balance .. => .balance
  | supply _ => .supply
  | issuer _ => .issuer
  | frozen .. => .frozen
  | aliasName _ | aliasSkeleton _ | aliasReverse _ => .name
  | contact _ | attestor _ => .contact
  | bond _ | unbonding _ | bondIndex => .stake
  | params | council | proposal _ | proposalIndex => .gov

variable {k : StoreKey}

theorem isName_iff : k.isName = true ↔ k.kind = .name := by cases k <;> simp [isName]

theorem isContact_iff : k.isContact = true ↔ k.kind = .contact := by cases k <;> simp [isContact]

theorem isStake_iff : k.isStake = true ↔ k.kind = .stake := by
  cases k <;> first | exact iff_of_true rfl rfl | exact iff_of_false nofun nofun

theorem isGov_iff : k.isGov = true ↔ k.kind = .gov := by
  cases k <;> first | exact iff_of_true rfl rfl | exact iff_of_false nofun nofun

end StoreKey

section

variable [Crypto]

/-- The families of the cells a message may change. -/
@[simp] def Message.kinds : Message → List CellKind
  | .transfer .. | .contributeToGroup .. | .buyShares .. | .paySocialFund _ | .repayLoan .. | .groupPayout _
  | .approveGroupAction _ | .shareOut _ => [.account, .balance]
  | .createGroup .. | .proposeGroupAction .. | .closeCycle _ | .setAccountFlag .. | .setRegularKey _
  | .setSignerList _ => [.account]
  | .registerName _ | .renewName _ | .setPrimaryAlias _ | .clearPrimaryAlias | .releaseName _ => [.name]
  | .transferName .. => [.account, .name]
  | .attestContact .. | .applyRebind _ => [.account, .contact]
  | .requestRebind .. | .vetoRebind _ | .revokeContact _ => [.contact]
  | .bond .. | .addStake _ | .withdrawUnbonded => [.balance, .stake]
  | .unbond _ => [.stake]
  | .reportEquivocation _ => [.balance, .supply, .stake]
  | .mint .. => [.balance, .supply, .issuer]
  | .burn .. => [.balance, .supply]
  | .setMinterAllowance .. | .setIssuerPaused .. | .setSupplyCap .. | .setFreezer ..
  | .acceptIssuerAuthority _ => [.issuer]
  | .transferIssuerAuthority .. => [.account, .issuer]
  | .setFrozen .. => [.frozen]
  | .proposeGovAction _ | .voteGovAction _ => [.gov]
  | .executeGovAction _ => [.account, .issuer, .contact, .gov]

open StoreKey in
theorem Message.kind_of_mayWrite {m : Message} {sender : Address} {k : StoreKey} (h : m.MayWrite sender k) :
    k.kind ∈ m.kinds := by
  cases m <;>
    simp only [MayWrite, Exec.Contributes, Exec.PaysOut, Staking.Cells, Staking.Slashed, Exec.GovernedCell,
      isName_iff, isContact_iff, isStake_iff, isGov_iff, List.mem_cons, List.not_mem_nil, or_false] at h <;>
    grind [StoreKey.kind, Message.kinds]

theorem Message.not_mayWrite {m : Message} {sender : Address} {k : StoreKey} (h : k.kind ∉ m.kinds) :
    ¬ m.MayWrite sender k := fun hmay => h (kind_of_mayWrite hmay)

/-- The records a message stores are within what their decoders accept: a loan's total is an amount, a list has
room for one more entry, an attestor's name is a name. -/
def Message.fits (sender : Address) (s : Store) : Message → Bool
  | .approveGroupAction group => Exec.loanFits sender group s
  | .proposeGovAction action => action.decodeError.isNone
  | .voteGovAction id =>
    match s.getDecoded (.proposal id) with
    | .ok (some p) => p.votes.length < MAX_FIELD_LEN
    | _ => true
  | .bond .. =>
    match s.getDecoded .bondIndex with
    | .ok (some index) => index.length < MAX_FIELD_LEN
    | _ => true
  | .unbond _ =>
    match s.getDecoded (.unbonding sender) with
    | .ok (some queue) => queue.length < MAX_FIELD_LEN
    | _ => true
  | _ => true

namespace Exec

variable {ctx : BlockContext} {sender : Address} {m : Message} {s : Store}

theorem applyMessage_keeps :
    Keeps (m.MayWrite sender) (m.fits sender s = true) ⊤ (applyMessage ctx sender m) s := by
  have hcontact : ∀ (c : ContactCommitment) (k : StoreKey), k = .contact c.asHash → k.isContact := by
    rintro c k rfl
    rfl
  cases m with
  | transfer dst d x reference => exact transfer_keeps
  | createGroup => exact createGroup_keeps
  | contributeToGroup group x => exact contributeToGroup_keeps
  | groupPayout group => exact groupPayout_keeps
  | buyShares group shares => exact buyShares_keeps
  | paySocialFund group => exact paySocialFund_keeps
  | proposeGroupAction group beneficiary kind => exact proposeGroupAction_keeps
  | approveGroupAction group => exact approveGroupAction_keeps id
  | repayLoan group x => exact repayLoan_keeps
  | closeCycle group => exact closeCycle_keeps
  | shareOut group => exact shareOut_keeps
  | registerName => exact .mapErr (fun _ => rfl) Registry.register_keeps
  | renewName => exact .mapErr (fun _ => rfl) Registry.renew_keeps
  | transferName name dst =>
    exact .bind (.mapErr (fun _ => rfl) (Registry.transfer_keeps.mono (fun _ => .inl) fun _ => id))
      fun _ _ _ _ => ensureAccount_keeps (.inr rfl)
  | setPrimaryAlias => exact .mapErr (fun _ => rfl) Registry.setPrimary_keeps
  | clearPrimaryAlias => exact .mapErr (fun _ => rfl) Registry.clearPrimary_keeps
  | releaseName => exact .mapErr (fun _ => rfl) Registry.release_keeps
  | attestContact c a =>
    exact .bind (.mapErr (fun _ => rfl) (Bindings.attest_keeps.mono (fun k hk => .inl (hcontact c k hk)) fun _ => id))
      fun _ _ _ _ => ensureAccount_keeps (.inr rfl)
  | requestRebind c =>
    exact .read paramsOf_keeps fun _ _ =>
      .mapErr (fun _ => rfl) (Bindings.requestRebind_keeps.mono (hcontact c) fun _ => id)
  | vetoRebind c => exact .mapErr (fun _ => rfl) (Bindings.vetoRebind_keeps.mono (hcontact c) fun _ => id)
  | applyRebind c =>
    refine .bind (.mapErr (fun _ => rfl) (Bindings.applyRebind_keeps.mono (fun k hk => .inl (hcontact c k hk)) fun _ => id))
      fun a _ _ _ => ensureAccount_keeps (.inr ⟨a, rfl⟩)
  | revokeContact c => exact .mapErr (fun _ => rfl) (Bindings.revoke_keeps.mono (hcontact c) fun _ => id)
  | bond =>
    unfold applyMessage
    refine staking_keeps fun _ => ?_
    refine Staking.bond_keeps fun hfits index hindex => ?_
    simpa [Message.fits, hindex] using hfits
  | addStake =>
    unfold applyMessage
    refine staking_keeps fun _ => ?_
    exact Staking.addStake_keeps
  | unbond =>
    unfold applyMessage
    refine staking_keeps fun _ => ?_
    refine Staking.unbond_keeps fun hfits queue hqueue => ?_
    simpa [Message.fits, hqueue] using hfits
  | withdrawUnbonded =>
    refine .bind (P := ⊤) (staking_keeps fun _ => ?_) fun _ _ _ _ => .pure trivial
    exact Staking.withdraw_keeps
  | reportEquivocation => exact reportEquivocation_keeps
  | setAccountFlag flag enabled =>
    unfold applyMessage
    refine changeAccount_keeps rfl (fun a a' h => ?_) fun a e h => ?_
    · cases h
      rfl
    · cases h
  | setRegularKey key => exact changeAccount_keeps rfl (fun _ _ => setRegularKey_kind) fun _ _ => setRegularKey_not_fault
  | setSignerList list =>
    unfold applyMessage
    refine changeAccount_keeps rfl (fun a a' h => ?_) fun a e h => ?_
    · cases h
      rfl
    · cases h
  | mint => exact .mapErr (fun _ => rfl) Bank.mint_keeps
  | burn => exact .mapErr (fun _ => rfl) Bank.burn_keeps
  | setMinterAllowance => exact .mapErr (fun _ => rfl) Bank.setMinterAllowance_keeps
  | setIssuerPaused => exact .mapErr (fun _ => rfl) Bank.setPaused_keeps
  | setSupplyCap => exact .mapErr (fun _ => rfl) Bank.tightenSupplyCap_keeps
  | setFreezer => exact .mapErr (fun _ => rfl) Bank.setFreezer_keeps
  | setFrozen d a frozen =>
    exact .mapErr (fun _ => rfl) (.ite (fun _ => Bank.freeze_keeps) fun _ => Bank.unfreeze_keeps)
  | transferIssuerAuthority d dst =>
    refine .bind (.mapErr (fun _ => rfl) (Bank.transferIssuerAuthority_keeps.mono (fun _ => .inl) fun _ => id))
      fun _ _ _ _ => ?_
    cases dst with
    | none => exact .pure trivial
    | some a => exact ensureAccount_keeps (.inr ⟨a, rfl, rfl⟩)
  | acceptIssuerAuthority => exact .mapErr (fun _ => rfl) Bank.acceptIssuerAuthority_keeps
  | proposeGovAction action =>
    refine .bind (.mapErr (fun _ => rfl) ((Governance.propose_keeps fun hfits => ?_).mono
      (fun _ => StoreKey.isGov_of_isDocket) fun _ => id)) fun _ _ _ _ => .pure trivial
    simpa [Message.fits] using hfits
  | voteGovAction =>
    refine .bind (.mapErr (fun _ => rfl) ((Governance.vote_keeps fun hfits p hp => ?_).mono
      (fun _ => StoreKey.isGov_of_isDocket) fun _ => id)) fun _ _ _ _ => .pure trivial
    simpa [Message.fits, hp] using hfits
  | executeGovAction =>
    exact .bind (.mapErr (fun _ => rfl) (Governance.execute_keeps.mono
      (fun _ hk => .inl (StoreKey.isGov_of_isDocket hk)) fun _ => id)) fun _ _ _ h => applyGovAction_keeps h

end Exec

end

end AfroLink
