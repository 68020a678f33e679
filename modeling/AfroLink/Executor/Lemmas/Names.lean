import AfroLink.Alias.Names
import AfroLink.Executor.Lemmas.Events
import AfroLink.State.Lemmas.Values

/-!
# The registry keeps the directory of names

Every message moves the directory of names as its rules say, and nothing else in a block touches it.
-/

namespace AfroLink

namespace Store

def names (s : Store) : Names where
  record n := s.valueAt (.aliasName n)
  holder skeleton := s.valueAt (.aliasSkeleton skeleton)
  display a := s.valueAt (.aliasReverse a)

variable {s s' : Store}

theorem names_eq {N : Names} (hrecord : ∀ n, s.valueAt (.aliasName n) = N.record n)
    (hholder : ∀ skeleton, s.valueAt (.aliasSkeleton skeleton) = N.holder skeleton)
    (hdisplay : ∀ a, s.valueAt (.aliasReverse a) = N.display a) : s.names = N :=
  Names.ext (funext hrecord) (funext hholder) (funext hdisplay)

theorem names_congr (h : ∀ k : StoreKey, k.isName → s' k = s k) : s'.names = s.names :=
  names_eq (fun _ => valueAt_congr (h _ rfl)) (fun _ => valueAt_congr (h _ rfl)) fun _ => valueAt_congr (h _ rfl)

theorem names_set_record {n : Username} {r : NameRecord} :
    (s.set (.aliasName n.asStr) r).names = s.names.setRecord n (some r) := by
  refine names_eq (fun key => ?_) (fun _ => valueAt_set_of_ne nofun) fun _ => valueAt_set_of_ne nofun
  rcases eq_or_ne key n.asStr with rfl | hne
  · rw [Names.setRecord_self, valueAt_set_self]
  · rw [Names.setRecord_of_ne hne, valueAt_set_of_ne (by simpa using hne)]
    rfl

theorem names_delete_record {n : Username} : (s.delete (.aliasName n.asStr)).names = s.names.setRecord n none := by
  refine names_eq (fun key => ?_) (fun _ => valueAt_delete_of_ne nofun) fun _ => valueAt_delete_of_ne nofun
  rcases eq_or_ne key n.asStr with rfl | hne
  · rw [Names.setRecord_self, valueAt_delete_self]
  · rw [Names.setRecord_of_ne hne, valueAt_delete_of_ne (by simpa using hne)]
    rfl

theorem names_set_holder {n : Username} {holder : String} :
    (s.set (.aliasSkeleton n.skeleton) holder).names = s.names.setHolder n (some holder) := by
  refine names_eq (fun _ => valueAt_set_of_ne nofun) (fun key => ?_) fun _ => valueAt_set_of_ne nofun
  rcases eq_or_ne key n.skeleton with rfl | hne
  · rw [Names.setHolder_self, valueAt_set_self]
  · rw [Names.setHolder_of_ne hne, valueAt_set_of_ne (by simpa using hne)]
    rfl

theorem names_delete_holder {n : Username} :
    (s.delete (.aliasSkeleton n.skeleton)).names = s.names.setHolder n none := by
  refine names_eq (fun _ => valueAt_delete_of_ne nofun) (fun key => ?_) fun _ => valueAt_delete_of_ne nofun
  rcases eq_or_ne key n.skeleton with rfl | hne
  · rw [Names.setHolder_self, valueAt_delete_self]
  · rw [Names.setHolder_of_ne hne, valueAt_delete_of_ne (by simpa using hne)]
    rfl

theorem names_set_display {a : Address} {shown : String} :
    (s.set (.aliasReverse a) shown).names = s.names.setDisplay a (some shown) := by
  refine names_eq (fun _ => valueAt_set_of_ne nofun) (fun _ => valueAt_set_of_ne nofun) fun b => ?_
  rcases eq_or_ne b a with rfl | hne
  · rw [Names.setDisplay_self, valueAt_set_self]
  · rw [Names.setDisplay_of_ne hne, valueAt_set_of_ne (by simpa using hne)]
    rfl

theorem names_delete_display {a : Address} : (s.delete (.aliasReverse a)).names = s.names.setDisplay a none := by
  refine names_eq (fun _ => valueAt_delete_of_ne nofun) (fun _ => valueAt_delete_of_ne nofun) fun b => ?_
  rcases eq_or_ne b a with rfl | hne
  · rw [Names.setDisplay_self, valueAt_delete_self]
  · rw [Names.setDisplay_of_ne hne, valueAt_delete_of_ne (by simpa using hne)]
    rfl

end Store

/-! ## The operations of the registry -/

namespace Registry

variable {name : Username} {caller dst : Address} {now : Height} {s s' : Store}

theorem runs_lookup {v : Option NameRecord} (h : Runs (lookup name) s v s') :
    s.names.record name.asStr = v ∧ s' = s := by
  obtain ⟨hv, rfl⟩ := (runs_getDecoded (k := .aliasName name.asStr)).1 h
  exact ⟨Store.valueAt_of_read hv, rfl⟩

theorem runs_skeletonHolder {skeleton : String} {v : Option String} (h : Runs (skeletonHolder skeleton) s v s') :
    s.names.holder skeleton = v ∧ s' = s := by
  obtain ⟨hv, rfl⟩ := (runs_getDecoded (k := .aliasSkeleton skeleton)).1 h
  exact ⟨Store.valueAt_of_read hv, rfl⟩

theorem runs_primaryName {v : Option String} (h : Runs (primaryName caller) s v s') :
    s.names.display caller = v ∧ s' = s := by
  obtain ⟨hv, rfl⟩ := (runs_getDecoded (k := .aliasReverse caller)).1 h
  exact ⟨Store.valueAt_of_read hv, rfl⟩

theorem runs_ownedBy {r : NameRecord} (h : Runs (ownedBy name caller now) s r s') :
    s.names.Owned now caller name r ∧ s' = s := by
  obtain ⟨v, t, hv, h⟩ := Runs.bind_iff.1 h
  obtain ⟨hv, rfl⟩ := runs_lookup hv
  cases v with
  | none => exact (Runs.throw_iff.1 h).elim
  | some record =>
    obtain ⟨howner, h⟩ := Runs.guard_iff.1 h
    obtain ⟨hlive, h⟩ := Runs.guard_iff.1 h
    obtain ⟨rfl, rfl⟩ := Runs.pure_iff.1 h
    exact ⟨⟨hv, not_not.1 howner, by simpa using hlive⟩, rfl⟩

theorem runs_checkConfusable (h : Runs (checkConfusable name now) s () s') :
    s' = s ∧ ∀ other : Username, s.names.holder name.skeleton = some other.asStr → other ≠ name →
      ∀ r, s.names.record other.asStr = some r → r.isClaimable now = true := by
  obtain ⟨v, t, hv, hmatch⟩ := Runs.bind_iff.1 h
  obtain ⟨hholder, rfl⟩ := runs_skeletonHolder hv
  cases v with
  | none =>
    obtain ⟨-, rfl⟩ := Runs.pure_iff.1 hmatch
    refine ⟨rfl, fun other hother => ?_⟩
    cases hholder.symm.trans hother
  | some holder =>
    rcases Runs.ite_iff.1 hmatch with ⟨-, hparse⟩ | ⟨hsame, hdone⟩
    · obtain ⟨holderName, t', hnew, hread⟩ := Runs.bind_iff.1 hparse
      obtain ⟨hname, rfl⟩ := Runs.liftResult_iff.1 hnew
      obtain ⟨record, t', hlookup, hlast⟩ := Runs.bind_iff.1 hread
      obtain ⟨hrecord, rfl⟩ := runs_lookup hlookup
      rcases Runs.ite_iff.1 hlast with ⟨-, hthrow⟩ | ⟨hclaimable, hdone⟩
      · exact (Runs.throw_iff.1 hthrow).elim
      · obtain ⟨-, rfl⟩ := Runs.pure_iff.1 hdone
        refine ⟨rfl, fun other hother _ r hr => ?_⟩
        cases hholder.symm.trans hother
        cases other.new_asStr.symm.trans hname
        rw [hrecord.symm.trans hr, Option.any_some, Bool.not_eq_true, Bool.not_eq_false'] at hclaimable
        exact hclaimable
    · obtain ⟨-, rfl⟩ := Runs.pure_iff.1 hdone
      refine ⟨rfl, fun other hother hne => ?_⟩
      cases hholder.symm.trans hother
      exact absurd (Username.ext (not_not.1 hsame)) hne

theorem runs_dropPrimary (h : Runs (dropPrimary name caller) s () s') : s'.names = s.names.undisplay name caller := by
  obtain ⟨v, t, hv, hlast⟩ := Runs.bind_iff.1 h
  obtain ⟨rfl, rfl⟩ := runs_primaryName hv
  unfold Names.undisplay
  rcases Runs.ite_iff.1 hlast with ⟨hsome, hdelete⟩ | ⟨hsome, hdone⟩
  · obtain rfl := runs_deleteKey.1 hdelete
    rw [if_pos hsome, Store.names_delete_display]
  · obtain ⟨-, rfl⟩ := Runs.pure_iff.1 hdone
    rw [if_neg hsome]

theorem runs_register (h : Runs (register name caller now) s () s') :
    s.names.Step now caller (.registerName name) s'.names := by
  obtain ⟨v, t, hv, hrest⟩ := Runs.bind_iff.1 h
  obtain ⟨hrecord, rfl⟩ := runs_lookup hv
  obtain ⟨htaken, hrest⟩ := Runs.guard_iff.1 hrest
  obtain ⟨_, t, hcheck, hwrite⟩ := Runs.bind_iff.1 hrest
  obtain ⟨rfl, halike⟩ := runs_checkConfusable hcheck
  have hsecond := runs_setEncoded_bind.1 hwrite
  obtain rfl := runs_setEncoded.1 hsecond
  rw [Store.names_set_holder, Store.names_set_record]
  refine .register (fun r hr => ?_) halike
  rw [hrecord.symm.trans hr, Option.any_some, Bool.not_eq_true, Bool.not_eq_false'] at htaken
  exact htaken

theorem runs_renew (h : Runs (renew name caller now) s () s') :
    s.names.Step now caller (.renewName name) s'.names := by
  obtain ⟨r, t, hown, hwrite⟩ := Runs.bind_iff.1 h
  obtain ⟨howned, rfl⟩ := runs_ownedBy hown
  obtain rfl := runs_setEncoded.1 hwrite
  rw [Store.names_set_record]
  exact .renew howned

theorem runs_transfer (h : Runs (transfer name caller dst now) s () s') :
    s.names.Step now caller (.transferName name dst) s'.names := by
  obtain ⟨r, t, hown, hrest⟩ := Runs.bind_iff.1 h
  obtain ⟨howned, rfl⟩ := runs_ownedBy hown
  have hdrop := runs_setEncoded_bind.1 hrest
  rw [runs_dropPrimary hdrop, Store.names_set_record]
  exact .transfer howned

theorem runs_setPrimary (h : Runs (setPrimary name caller now) s () s') :
    s.names.Step now caller (.setPrimaryAlias name) s'.names := by
  obtain ⟨r, t, hown, hwrite⟩ := Runs.bind_iff.1 h
  obtain ⟨howned, rfl⟩ := runs_ownedBy hown
  obtain rfl := runs_setEncoded.1 hwrite
  rw [Store.names_set_display]
  exact .setPrimary howned

theorem runs_clearPrimary (h : Runs (clearPrimary caller) s () s') :
    s.names.Step now caller .clearPrimaryAlias s'.names := by
  obtain rfl := runs_deleteKey.1 h
  rw [Store.names_delete_display]
  exact .clearPrimary

theorem runs_release (h : Runs (release name caller now) s () s') :
    s.names.Step now caller (.releaseName name) s'.names := by
  obtain ⟨r, t, hown, hrest⟩ := Runs.bind_iff.1 h
  obtain ⟨howned, rfl⟩ := runs_ownedBy hown
  obtain ⟨_, t, hrecord, hrest⟩ := Runs.bind_iff.1 hrest
  obtain rfl := runs_deleteKey.1 hrecord
  obtain ⟨_, t, hholder, hdrop⟩ := Runs.bind_iff.1 hrest
  obtain rfl := runs_deleteKey.1 hholder
  rw [runs_dropPrimary hdrop, Store.names_delete_holder, Store.names_delete_record]
  exact .release howned

end Registry

/-! ## Messages and events -/

section

variable [Crypto] {ctx : BlockContext} {sender : Address} {m : Message} {s s' : Store} {es : List StoreEvent}
  {k : StoreKey}

theorem Names.concerns_of_mayWrite (h : m.MayWrite sender k) (hk : k.isName = true) : Concerns m := by
  have hkind := Message.kind_of_mayWrite h
  rw [StoreKey.isName_iff.1 hk] at hkind
  cases m <;> simp at hkind <;> trivial

omit [Crypto] in
theorem Exec.ensureAccount_names {a : Address} (h : Runs (ensureAccount a) s () s') : s'.names = s.names := by
  refine Store.names_congr fun k hk => ensureAccount_frame h ?_
  rintro rfl
  cases hk

theorem Exec.applyMessage_names (h : Runs (applyMessage ctx sender m) s () s') :
    s.names.Step ctx.height sender m s'.names := by
  by_cases hm : Names.Concerns m
  · cases m with
    | registerName => exact Registry.runs_register (Runs.mapErr_iff.1 h)
    | renewName => exact Registry.runs_renew (Runs.mapErr_iff.1 h)
    | transferName =>
      obtain ⟨_, t, htransfer, hensure⟩ := Runs.bind_iff.1 h
      rw [ensureAccount_names hensure]
      exact Registry.runs_transfer (Runs.mapErr_iff.1 htransfer)
    | setPrimaryAlias => exact Registry.runs_setPrimary (Runs.mapErr_iff.1 h)
    | clearPrimaryAlias =>
      have hclear : Runs (mapErr ExecError.registry (Registry.clearPrimary sender)) s () s' := h
      exact Registry.runs_clearPrimary (Runs.mapErr_iff.1 hclear)
    | releaseName => exact Registry.runs_release (Runs.mapErr_iff.1 h)
    | _ => cases hm
  · have hsame : s'.names = s.names := Store.names_congr fun k hk =>
      (applyMessage_keeps.run h).1.frame k fun hmay => hm (Names.concerns_of_mayWrite hmay hk)
    rw [hsame]
    exact .other hm

theorem Emits.names (h : Emits s es s') :
    (∃ ctx sender m, es = [.message ctx sender m] ∧ s.names.Step ctx.height sender m s'.names) ∨
      es.filterMap StoreEvent.took = [] ∧ s'.names = s.names := by
  rcases h.quiet_or_message with hes | ⟨ctx, sender, m, rfl, hm⟩
  · refine .inr ⟨hes, Store.names_congr fun k hk => ?_⟩
    exact h.frame hes (by rintro a rfl; cases hk) (by rintro a d rfl; cases hk)
  · exact .inl ⟨_, _, _, rfl, Exec.applyMessage_names hm⟩

/-! ## Heights along a run -/

def StoreEvent.height : StoreEvent → Option Height
  | .message ctx _ _ => some ctx.height
  | .fee .. | .nonce _ | .pointer .. => none

variable {e : Executor} {blocks : List (BlockContext × List Transaction)}

theorem Exec.txsEvents_height {ts : List Transaction} {h : Height}
    (hh : h ∈ (txsEvents e ctx ts s).filterMap StoreEvent.height) : h = ctx.height := by
  induction ts generalizing s with
  | nil => cases hh
  | cons t rest ih =>
    rw [txsEvents, List.filterMap_append, List.mem_append] at hh
    rcases hh with hh | hh
    · obtain ⟨ev, hev, hheight⟩ := List.mem_filterMap.1 hh
      rcases txEvents_cases hev with ⟨_, rfl⟩ | ⟨m, -, rfl⟩ | rfl | ⟨_, _, rfl⟩
      · cases hheight
      · cases hheight
        rfl
      · cases hheight
      · cases hheight
    · exact ih hh

theorem runEvents_height [StateRoot] {h : Height}
    (hh : h ∈ (runEvents e blocks s).filterMap StoreEvent.height) : ∃ bl ∈ blocks, h = bl.1.height := by
  induction blocks generalizing s with
  | nil => cases hh
  | cons bl rest ih =>
    rw [runEvents, List.filterMap_append, List.mem_append] at hh
    rcases hh with hh | hh
    · exact ⟨bl, .head _, Exec.txsEvents_height hh⟩
    · obtain ⟨bl', hbl', hheight⟩ := ih hh
      exact ⟨bl', .tail _ hbl', hheight⟩

theorem runEvents_heights_sorted [StateRoot] (hblocks : (blocks.map (·.1.height)).Pairwise (· ≤ ·)) :
    ((runEvents e blocks s).filterMap StoreEvent.height).Pairwise (· ≤ ·) := by
  induction blocks generalizing s with
  | nil => exact .nil
  | cons bl rest ih =>
    rw [List.map_cons, List.pairwise_cons] at hblocks
    rw [runEvents, List.filterMap_append, List.pairwise_append]
    refine ⟨?_, ih hblocks.2, ?_⟩
    · refine List.pairwise_of_forall_mem_list fun h hh h' hh' => ?_
      rw [Exec.txsEvents_height hh, Exec.txsEvents_height hh']
    · intro h hh h' hh'
      obtain ⟨bl', hbl', rfl⟩ := runEvents_height hh'
      rw [Exec.txsEvents_height hh]
      exact hblocks.1 _ (List.mem_map.2 ⟨bl', hbl', rfl⟩)

end

end AfroLink
