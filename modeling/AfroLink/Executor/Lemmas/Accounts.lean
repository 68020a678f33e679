import AfroLink.Executor.Lemmas.Transaction

/-!
# What happens to an account record

A message leaves a record as it is, changes the keys of its sender, rewrites the group in it or makes a group of it.
-/

namespace AfroLink

/-- The record stored at `a`, readable or not; a fresh individual's where there is none. -/
def Store.record (s : Store) (a : Address) : Account :=
  match s (.account a) with
  | some (.value r) => r
  | _ => Account.individual a

namespace Store

variable {s s' : Store} {a b : Address} {r : Account}

theorem record_congr (h : s' (.account a) = s (.account a)) : s'.record a = s.record a := by
  unfold record
  rw [h]

theorem record_of_cell (h : s (.account a) = some (.value r)) : s.record a = r := by
  unfold record
  rw [h]

theorem record_of_read {v : Option Account} (h : s.getDecoded (.account a) = .ok v) :
    s.record a = v.getD (Account.individual a) := by
  cases v with
  | none =>
    unfold record
    rw [getDecoded_eq_none.1 h]
    rfl
  | some r => exact record_of_cell (getDecoded_eq_some.1 h).1

theorem record_set : (s.set (.account a) r).record a = r := record_of_cell set_self

theorem record_set_of_ne (h : b ≠ a) : (s.set (.account a) r).record b = s.record b :=
  record_congr (set_of_ne (by simpa using h))

end Store

structure Account.SameKeys (r r' : Account) : Prop where
  flags : r'.flags = r.flags
  regularKey : r'.regularKey = r.regularKey
  signers : r'.signers = r.signers

theorem Account.SameKeys.refl (r : Account) : SameKeys r r := ⟨rfl, rfl, rfl⟩

theorem Account.SameKeys.trans {r r' r'' : Account} (h : SameKeys r r') (h' : SameKeys r' r'') : SameKeys r r'' :=
  ⟨h'.flags.trans h.flags, h'.regularKey.trans h.regularKey, h'.signers.trans h.signers⟩

theorem Account.SameKeys.usable {r r' : Account} (h : SameKeys r r') :
    r'.hasAUsableAuthority = r.hasAUsableAuthority := by
  unfold hasAUsableAuthority
  rw [h.flags, h.regularKey, h.signers]

section

variable [Crypto]

/-- What a message of `sender` may do to the record at `a`. -/
inductive RecordStep (sender a : Address) (r : Account) : Account → Prop where
  | same : RecordStep sender a r r
  | rekey {r' : Account} (ha : a = sender) (haddress : r'.address = r.address) (hnonce : r'.nonce = r.nonce)
      (hkind : r'.kind = r.kind) (hlast : r'.lastTxn = r.lastTxn) (husable : r'.hasAUsableAuthority = true) :
      RecordStep sender a r r'
  | regroup {g g' : GroupAccount} (hg : r.asGroup = some g) : RecordStep sender a r { r with kind := .group g' }
  | found {seed : Bytes} {g : GroupAccount} {key : Option PublicKey} (ha : a = Address.derived .groupAddress seed)
      (hkind : r.kind = .individual key) : RecordStep sender a r { r with kind := .group g }

end

/-! ## Records that stay -/

/-- Every account keeps its record; one that had none may be given the fresh one. -/
def SameRecords (s s' : Store) : Prop := ∀ a, s'.record a = s.record a

instance : IsTrans Store SameRecords := ⟨fun _ _ _ h h' a => (h' a).trans (h a)⟩

theorem SameRecords.of_frame {s s' : Store} (h : ∀ a, s' (.account a) = s (.account a)) : SameRecords s s' :=
  fun a => Store.record_congr (h a)

theorem Keeps.sameRecords {ε α : Type} [StateFault ε] {F : StoreKey → Prop} {P : Store → α → Prop} {x : StoreM ε α}
    (h : ∀ s, Keeps F False (P s) x s) (hF : ∀ a, ¬ F (.account a)) : Preserves SameRecords x :=
  fun s => wp.mono (h s) (fun _ _ h' => .of_frame fun a => h'.1.frame _ (hF a)) fun _ _ _ => trivial

namespace Exec

variable {s s' : Store} {sender a b group : Address}

theorem ensureAccount_sameRecords : Preserves SameRecords (ensureAccount a) := by
  intro s
  simp only [ensureAccount, wp.bind_iff, wp.get_iff, wp.ite_iff, wp.pure_iff, writeAccount, wp_setEncoded]
  refine ⟨fun hnone b => ?_, fun _ _ => rfl⟩
  by_cases hb : b = a
  · subst hb
    rw [Store.record_set]
    unfold Store.record
    rw [Option.isNone_iff_eq_none.1 hnone]
  · exact Store.record_set_of_ne hb

theorem transfer_sameRecords {dst : Address} {d : Denom} {x : Amount} {reference : Option PaymentReference} :
    Preserves SameRecords (transfer sender dst d x reference) := by
  refine .bind (Keeps.sameRecords (fun _ => loadAccount_keeps) fun _ => id) fun _ => .guard <| .bind ?_ fun _ =>
    ensureAccount_sameRecords
  exact Keeps.sameRecords (F := fun k => ∃ a d, k = .balance a d)
    (fun _ => bankTransfer_keeps ⟨_, _, rfl⟩ ⟨_, _, rfl⟩) (by rintro a ⟨_, _, hk⟩; cases hk)

theorem applyGovAction_sameRecords {action : GovAction} (h : action.decodeError = none) :
    Preserves SameRecords (applyGovAction action) := by
  cases action with
  | setCouncil c => exact .mapErr (Keeps.sameRecords (fun _ => Governance.setCouncil_keeps) nofun)
  | setParams p => exact .mapErr (Keeps.sameRecords (fun _ => Governance.setParams_keeps) nofun)
  | licenseAttestor a r =>
    exact .bind (.mapErr (Keeps.sameRecords (fun _ => Bindings.registerAttestor_keeps h) nofun)) fun _ =>
      ensureAccount_sameRecords
  | setAttestorActive a active => exact .mapErr (Keeps.sameRecords (fun _ => Bindings.setAttestorActive_keeps) nofun)
  | admitDenom d authority =>
    exact .bind (.mapErr (Keeps.sameRecords (fun _ => Bank.admitIssuer_keeps) nofun)) fun _ =>
      ensureAccount_sameRecords
  | cancel id => exact .throw

/-! ## Groups -/

section

variable [Crypto] {ctx : BlockContext} {m : Message}

theorem record_of_editsGroup (h : Runs (applyMessage ctx sender m) s () s') (hm : Message.editsGroup m = some group) :
    ∃ g g', (s.record group).asGroup = some g ∧ s'.record group = { s.record group with kind := .group g' } := by
  obtain ⟨r, g, g', payer, payments, h⟩ := applyMessage_writesBack h hm
  obtain ⟨s₁, -, rfl⟩ := h.paid
  have hr : s.record group = r := Store.record_of_read h.read
  exact ⟨g, g', hr ▸ h.group, by rw [hr, Store.record_set]⟩

/-! ## Messages -/

omit [Crypto] in
theorem loadAccount_record {C : Prop} : Keeps ⊥ C (fun r => r = s.record a) (loadAccount a) s :=
  .read .get fun _ hv => .pure (Store.record_of_read hv).symm

variable {r : Account} {change : Account → Except ExecError Account}

theorem recordStep_of_set (h : RecordStep sender b (s.record b) r) (a : Address) :
    RecordStep sender a (s.record a) ((s.set (.account b) r).record a) := by
  by_cases ha : a = b
  · subst ha
    rwa [Store.record_set]
  · rw [Store.record_set_of_ne ha]
    exact .same

/-- What a message that neither founds nor edits a group may do to the record at `a`. -/
def KindKept (sender a : Address) (r r' : Account) : Prop := RecordStep sender a r r' ∧ r'.kind = r.kind

theorem kindKept_of_eq {r' : Account} (h : r' = r) : KindKept sender a r r' := h ▸ ⟨.same, rfl⟩

def Message.rekeys : Message → Option (Account → Except ExecError Account)
  | .setAccountFlag flag enabled => some fun r => .ok { r with flags := r.flags.set flag enabled }
  | .setRegularKey key => some (setRegularKey key)
  | .setSignerList list => some fun r => .ok { r with signers := list }
  | _ => none

theorem rekeys_ok {r' : Account} (hm : Message.rekeys m = some change) (h : change r = .ok r') :
    r'.address = r.address ∧ r'.nonce = r.nonce ∧ r'.kind = r.kind ∧ r'.lastTxn = r.lastTxn := by
  cases m <;> cases hm
  case setRegularKey key =>
    unfold setRegularKey at h
    split_ifs at h
    cases h
    exact ⟨rfl, rfl, rfl, rfl⟩
  all_goals
    cases h
    exact ⟨rfl, rfl, rfl, rfl⟩

theorem runs_of_rekeys (h : Runs (applyMessage ctx sender m) s () s') (hm : Message.rekeys m = some change) :
    ∃ r, change (s.record sender) = .ok r ∧ r.hasAUsableAuthority = true ∧ s' = s.set (.account sender) r := by
  have happly : applyMessage ctx sender m = changeAccount sender change := by cases m <;> cases hm <;> rfl
  rw [happly] at h
  obtain ⟨_, rfl, h⟩ := loadAccount_record.run_read h
  obtain ⟨r, hr, h⟩ := Runs.lift h
  obtain ⟨husable, h⟩ := Runs.guard_iff.1 h
  exact ⟨r, hr, by simpa using husable, (runs_setEncoded.1 h).symm⟩

theorem kindKept_of_rekeys (h : Runs (applyMessage ctx sender m) s () s')
    (hm : Message.rekeys m = some change) (a : Address) : KindKept sender a (s.record a) (s'.record a) := by
  obtain ⟨r, hr, husable, rfl⟩ := runs_of_rekeys h hm
  obtain ⟨haddress, hnonce, hkind, hlast⟩ := rekeys_ok hm hr
  refine ⟨recordStep_of_set (.rekey rfl haddress hnonce hkind hlast husable) a, ?_⟩
  by_cases ha : a = sender
  · subst ha
    rwa [Store.record_set]
  · rw [Store.record_set_of_ne ha]

theorem createGroup_runs {height : Height} {name : String} {members : List FoundingMember}
    {contribution : Contribution} {policy : PayoutPolicy} {quorum : Quorum}
    (h : Runs (createGroup height sender name members contribution policy quorum) s () s') :
    ∃ address g key,
      address = Address.derived .groupAddress (sender.asBytes ++ leBytes 8 (s.record sender).nonce.val) ∧
      GroupAccount.new name (members.map (·.intoMember 0)) contribution policy quorum height = .ok g ∧
      (s.record address).kind = .individual key ∧
      s' = s.set (.account address) { s.record address with kind := .group g } := by
  obtain ⟨creator, rfl, h⟩ := loadAccount_record.run_read h
  obtain ⟨g, hg, h⟩ := Runs.lift h
  obtain ⟨r, rfl, h⟩ := loadAccount_record.run_read h
  split at h
  · rename_i key hkind
    exact ⟨_, g, key, rfl, hg, hkind, (runs_setEncoded.1 h).symm⟩
  · cases h

theorem record_of_frame (h : Runs (applyMessage ctx sender m) s () s') (hframe : ¬ m.MayWrite sender (.account a)) :
    s'.record a = s.record a :=
  Store.record_congr ((applyMessage_keeps.run h).1.frame _ hframe)

theorem account_of_editsGroup (hm : Message.editsGroup m = some group) (ha : a ≠ group) :
    ¬ m.MayWrite sender (.account a) := by
  cases m <;> cases hm
  case contributeToGroup | buyShares | paySocialFund | repayLoan =>
    rintro (hk | ⟨_, hk | hk⟩) <;> cases hk
    exact ha rfl
  case groupPayout | approveGroupAction | shareOut =>
    rintro (hk | ⟨_, _, hk⟩) <;> cases hk
    exact ha rfl
  case proposeGroupAction | closeCycle =>
    rintro hk
    cases hk
    exact ha rfl

def Message.founds : Message → Bool
  | .createGroup .. => true
  | _ => false

theorem record_of_applyMessage (h : Runs (applyMessage ctx sender m) s () s') (hfounds : Message.founds m = false)
    (hedits : Message.editsGroup m ≠ some a) (hrekeys : Message.rekeys m = none) : s'.record a = s.record a := by
  cases m with
  | createGroup => cases hfounds
  | transfer dst d x reference => exact transfer_sameRecords.run h a
  | setAccountFlag | setRegularKey | setSignerList => cases hrekeys
  | contributeToGroup group | buyShares group | paySocialFund group | repayLoan group | groupPayout group
  | approveGroupAction group | shareOut group | proposeGroupAction group | closeCycle group =>
    exact record_of_frame h (account_of_editsGroup rfl fun ha => hedits (congrArg some ha.symm))
  | transferName name dst =>
    refine Preserves.run (R := SameRecords) (.bind (.mapErr ?_) fun _ => ensureAccount_sameRecords) h a
    exact Keeps.sameRecords (fun _ => Registry.transfer_keeps) nofun
  | attestContact c b =>
    refine Preserves.run (R := SameRecords) (.bind (.mapErr ?_) fun _ => ensureAccount_sameRecords) h a
    exact Keeps.sameRecords (fun _ => Bindings.attest_keeps) nofun
  | applyRebind c =>
    refine Preserves.run (R := SameRecords) (.bind (.mapErr ?_) fun _ => ensureAccount_sameRecords) h a
    exact Keeps.sameRecords (fun _ => Bindings.applyRebind_keeps) nofun
  | transferIssuerAuthority d dst =>
    refine Preserves.run (R := SameRecords) (.bind (.mapErr ?_) fun _ => ?_) h a
    · exact Keeps.sameRecords (fun _ => Bank.transferIssuerAuthority_keeps) nofun
    · cases dst with
      | none => exact fun _ _ => rfl
      | some b => exact ensureAccount_sameRecords
  | executeGovAction id =>
    obtain ⟨action, s₁, hexec, haction⟩ := Runs.bind_iff.1 h
    obtain ⟨hw, haction'⟩ := (Governance.execute_keeps (C := False)).run (Runs.mapErr_iff.1 hexec)
    have hfirst : SameRecords s s₁ := .of_frame fun b => hw.frame _ nofun
    exact ((applyGovAction_sameRecords haction').run haction a).trans (hfirst a)
  | _ => exact record_of_frame h (Message.not_mayWrite (by simp))

theorem applyMessage_kindKept (h : Runs (applyMessage ctx sender m) s () s') (hfounds : Message.founds m = false)
    (hedits : Message.editsGroup m ≠ some a) : KindKept sender a (s.record a) (s'.record a) := by
  cases hrekeys : Message.rekeys m with
  | none => exact kindKept_of_eq (record_of_applyMessage h hfounds hedits hrekeys)
  | some change => exact kindKept_of_rekeys h hrekeys a

theorem applyMessage_record (h : Runs (applyMessage ctx sender m) s () s') (a : Address) :
    RecordStep sender a (s.record a) (s'.record a) := by
  by_cases hfounds : Message.founds m = true
  · cases m <;> cases hfounds
    obtain ⟨address, g, key, hseed, -, hkind, rfl⟩ := createGroup_runs h
    exact recordStep_of_set (.found hseed hkind) a
  · by_cases hedits : Message.editsGroup m = some a
    · obtain ⟨g, g', hg, hrec⟩ := record_of_editsGroup h hedits
      rw [hrec]
      exact .regroup hg
    · exact (applyMessage_kindKept h (by simpa using hfounds) hedits).1

end

end Exec

end AfroLink
