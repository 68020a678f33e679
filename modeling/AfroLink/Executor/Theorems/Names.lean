import AfroLink.Executor.Lemmas.Names
import AfroLink.Executor.Lemmas.Regular
import AfroLink.Executor.Theorems.Accounts

/-!
# Names along a run

Of the names that look alike at most one is live, and its holder keeps it for its term and the grace period.
-/

namespace AfroLink

open Exec

section

variable [Crypto] [StateRoot] {g : Genesis} {limits : GenesisLimits} {block : Block} {start s : Store} {es : List StoreEvent}

theorem Genesis.apply_names (h : Runs (g.apply limits) .empty block s) : s.names = .empty := by
  have hframe : ∀ k : StoreKey, k.isName = true → s k = Store.empty k := fun k hk =>
    install_frame (install_of_apply h) (by cases k <;> cases hk <;> exact id) (by rintro a rfl; cases hk)
  exact Store.names_congr hframe

omit [StateRoot] in
theorem names_indexed (htrace : Trace Emits start es s) (hstart : start.names = .empty)
    (hsorted : (es.filterMap StoreEvent.height).Pairwise (· ≤ ·)) {now : Height}
    (hnow : ∀ h ∈ es.filterMap StoreEvent.height, h ≤ now) : s.names.Indexed now := by
  refine htrace.invariant_nil (I := fun es s => (es.filterMap StoreEvent.height).Pairwise (· ≤ ·) →
    ∀ now, (∀ h ∈ es.filterMap StoreEvent.height, h ≤ now) → s.names.Indexed now) ?_ ?_ hsorted now hnow
  · intro hist s as t hs hstep hsorted now hnow
    rw [List.filterMap_append] at hsorted hnow
    rw [List.pairwise_append] at hsorted
    rcases hstep.names with ⟨ctx, sender, m, rfl, hmove⟩ | ⟨hquiet, hsame⟩
    · -- at the height of the message the index was complete, and it stays so from there on
      have hbefore : s.names.Indexed ctx.height :=
        hs hsorted.1 ctx.height fun h hh => hsorted.2.2 h hh ctx.height (.head _)
      exact (hmove.indexed hbefore).of_le (hnow ctx.height (List.mem_append_right _ (.head _)))
    · rw [hsame]
      exact hs hsorted.1 now fun h hh => hnow h (List.mem_append_left _ hh)
  · rw [hstart]
    rintro - now - n ⟨r, hr, -⟩
    cases hr

end

/-- At every height, names that look alike are not both live, and a name leaves its holder only by the holder's own
transfer or release or once it is claimable. -/
theorem live_names_apart [Crypto] [StateRoot] (g : Genesis) (limits : GenesisLimits) (block : Block) (start : Store)
    (hgenesis : Runs (g.apply limits) .empty block start) (e : Executor) (blocks : List (BlockContext × List Transaction))
    (hheights : (blocks.map (·.1.height)).Pairwise (· ≤ ·)) (es later : List StoreEvent)
    (hes : es ++ later <+: runEvents e blocks start) (s s' : Store) (hs : Trace Emits start es s)
    (hs' : Trace Emits s later s') :
    (∀ now, (∀ h ∈ es.filterMap StoreEvent.height, h ≤ now) → ∀ n n', s.names.Live now n → s.names.Live now n' →
      n.skeleton = n'.skeleton → n = n') ∧
    ∀ n a, s.names.Held n.asStr a → s'.names.Held n.asStr a ∨ ∃ before after ctx sender m t,
      later = before ++ .message ctx sender m :: after ∧ Trace Emits s before t ∧ t.names.Held n.asStr a ∧
      t.names.Loses n a ctx.height sender m := by
  constructor
  · intro now hnow n n' hn hn' halike
    have hfirst : es <+: runEvents e blocks start := (List.prefix_append es later).trans hes
    have hsorted := (runEvents_heights_sorted (s := start) (e := e) hheights).sublist (hfirst.filterMap _).sublist
    exact (names_indexed hs (Genesis.apply_names hgenesis) hsorted hnow).unique hn hn' halike
  · intro n a hheld
    by_cases hkept : s'.names.Held n.asStr a
    · exact .inl hkept
    · obtain ⟨before, bs, after, t, t', rfl, hbefore, hstep, -, hheld, hlost⟩ :=
        hs'.exists_loss (P := fun s => s.names.Held n.asStr a) hheld hkept
      rcases hstep.names with ⟨ctx, sender, m, rfl, hmove⟩ | ⟨-, hsame⟩
      · exact .inr ⟨before, after, ctx, sender, m, t, rfl, hbefore, hheld, (hmove.held hheld).resolve_left hlost⟩
      · rw [hsame] at hlost
        exact absurd hheld hlost

namespace Sample

def alice : Username := ⟨"alice", by decide⟩

def a1ice : Username := ⟨"a1ice", by decide⟩

def members : List (Address × Amount) := [(addressOf 1, 1000), (addressOf 2, 1000)]

def membersFile : GenesisFile := ⟨members, by decide +kernel⟩

theorem members_genesis : ∃ b, Runs ((genesisOf members).apply .devnet) .empty b (opened members) :=
  Genesis.apply_of_install membersFile.installs

def lasting (n : ℕ) (nonce : U64) (messages : List Message) : Transaction :=
  TxBody.sign
    { chainId := chain, sender := addressOf n, nonce, validUntil := Fin.last _
      fee := { amount := 10, denom := Denom.native, payer := none }, messages, memo := "" } (key n)

/-- Account 1 registers `alice`; account 2 tries the lookalike. -/
def lookalikes : List (BlockContext × List Transaction) :=
  [(⟨1, 5⟩, [lasting 1 0 [.registerName alice]]), (⟨2, 6⟩, [lasting 2 0 [.registerName a1ice]])]

/-- The lookalike is not live while the name is. -/
theorem live_names_apart_lookalikes : alice.skeleton = a1ice.skeleton ∧
    (executeBlocks ⟨chain⟩ lookalikes (opened members)).names.Live 2 alice ∧
    ¬ (executeBlocks ⟨chain⟩ lookalikes (opened members)).names.Live 2 a1ice := by
  obtain ⟨block, hgenesis⟩ := members_genesis
  have hskeleton : alice.skeleton = a1ice.skeleton := by decide
  have hrecord : (executeBlocks ⟨chain⟩ lookalikes (opened members)).names.record alice.asStr =
      some ⟨addressOf 1, 1, 31536001⟩ := by
    decide +kernel
  have hlive : (executeBlocks ⟨chain⟩ lookalikes (opened members)).names.Live 2 alice := ⟨_, hrecord, by decide +kernel⟩
  refine ⟨hskeleton, hlive, fun hlookalike => ?_⟩
  have hheights : ∀ h ∈ (runEvents ⟨chain⟩ lookalikes (opened members)).filterMap StoreEvent.height, h ≤ 2 := by
    intro h hh
    obtain ⟨bl, hbl, rfl⟩ := runEvents_height hh
    rcases List.mem_cons.1 hbl with rfl | hbl
    · decide
    · cases List.mem_singleton.1 hbl
      decide
  have happart := (live_names_apart _ _ block _ hgenesis ⟨chain⟩ lookalikes (by decide) _ [] (by simp) _ _
    (executeBlocks_trace ⟨chain⟩ lookalikes (opened members)) (.nil _)).1 2 hheights _ _ hlive hlookalike hskeleton
  exact absurd happart (by decide)

end Sample

theorem Store.displayed_names {s : Store} : s.names.Displayed ↔
    ∀ a n, s (.aliasReverse a) = some (.value n) → ∃ r, s (.aliasName n) = some (.value r) ∧ r.owner = a := by
  have hreverse : ∀ a (n : String), s.names.display a = some n ↔ s (.aliasReverse a) = some (.value n) := fun a n =>
    valueAt_eq_some (k := .aliasReverse a)
  have hname : ∀ (n : String) (r : NameRecord), s.names.record n = some r ↔ s (.aliasName n) = some (.value r) :=
    fun n r => valueAt_eq_some (k := .aliasName n)
  simp only [Names.Displayed, Names.Held, hreverse, hname]

/-- A registration finds nobody else displaying the name. -/
def Exec.RegistersUndisplayed (s : Store) : StoreEvent → Prop
  | .message _ sender m => s.names.Undisplayed sender m
  | .fee .. | .nonce _ | .pointer .. => True

/-- As long as no registration takes a name its former holder still displays, what an account displays is its own; and
such a registration always breaks it. -/
theorem displayed_names_owned [Crypto] [StateRoot] (g : Genesis) (limits : GenesisLimits) (block : Block) (start : Store)
    (hgenesis : Runs (g.apply limits) .empty block start) (e : Executor) (s : Store)
    (hs : OccursWhere RegistersUndisplayed e start s) :
    (∀ a n, s (.aliasReverse a) = some (.value n) → ∃ r, s (.aliasName n) = some (.value r) ∧ r.owner = a) ∧
    ∀ ctx sender m s', Runs (applyMessage ctx sender m) s () s' →
      ((∀ a n, s' (.aliasReverse a) = some (.value n) → ∃ r, s' (.aliasName n) = some (.value r) ∧ r.owner = a) ↔
        RegistersUndisplayed s (.message ctx sender m)) := by
  rw [← Store.displayed_names]
  have hdisplayed : s.names.Displayed := by
    obtain ⟨blocks, es, -, htrace⟩ := hs
    refine htrace.preserves (I := fun s => s.names.Displayed) ?_ ?_
    · rintro s es s' hs ⟨hstep, hregister⟩
      rcases hstep.names with ⟨ctx, sender, m, rfl, hmove⟩ | ⟨-, hsame⟩
      · exact (hmove.displayed_iff hs).2 (hregister _ (.head _))
      · rw [hsame]
        exact hs
    · rw [Genesis.apply_names hgenesis]
      exact fun a n h => by cases h
  refine ⟨hdisplayed, fun ctx sender m s' hrun => ?_⟩
  rw [← Store.displayed_names]
  exact (applyMessage_names hrun).displayed_iff hdisplayed

namespace Sample

def displaying : List (BlockContext × List Transaction) :=
  [(⟨1, 5⟩, [lasting 1 0 [.registerName alice, .setPrimaryAlias alice]])]

/-- When its term and the grace period are over, account 2 registers it. -/
def reclaiming : List (BlockContext × List Transaction) := [(⟨34128001, 6⟩, [lasting 2 0 [.registerName alice]])]

/-- Account 1 displays the name of account 2. -/
theorem displayed_name_reclaimed :
    (∃ block, Runs ((genesisOf members).apply .devnet) .empty block (opened members)) ∧
    executeBlocks ⟨chain⟩ (displaying ++ reclaiming) (opened members) (.aliasReverse (addressOf 1)) =
      some (.value "alice") ∧
    ∃ r, executeBlocks ⟨chain⟩ (displaying ++ reclaiming) (opened members) (.aliasName "alice") = some (.value r) ∧
      r.owner = addressOf 2 ∧ addressOf 2 ≠ addressOf 1 :=
  ⟨members_genesis, by decide +kernel, ⟨addressOf 2, 34128001, 65664001⟩, by decide +kernel, rfl, by decide +kernel⟩

theorem displayed_names_owned_displaying :
    ∃ r, executeBlocks ⟨chain⟩ displaying (opened members) (.aliasName "alice") = some (.value r) ∧
      r.owner = addressOf 1 := by
  obtain ⟨block, hgenesis⟩ := members_genesis
  have hshown : executeBlocks ⟨chain⟩ displaying (opened members) (.aliasReverse (addressOf 1)) = some (.value "alice") := by
    decide +kernel
  have hoccurs : OccursWhere RegistersUndisplayed ⟨chain⟩ (opened members)
      (executeBlocks ⟨chain⟩ displaying (opened members)) := by
    have hevents : runEvents ⟨chain⟩ displaying (opened members) =
        [.fee (addressOf 1) .native 10, .message ⟨1, 5⟩ (addressOf 1) (.registerName alice),
          .message ⟨1, 5⟩ (addressOf 1) (.setPrimaryAlias alice), .nonce (addressOf 1),
          .pointer (addressOf 1) ⟨(lasting 1 0 [.registerName alice, .setPrimaryAlias alice]).id, 1⟩] := by
      decide +kernel
    have htrace := executeBlocks_trace ⟨chain⟩ displaying (opened members)
    refine ⟨displaying, _, List.prefix_rfl, ?_⟩
    rw [hevents] at htrace ⊢
    obtain ⟨s₁, hfee, htrace⟩ := htrace.of_cons Emits.single
    obtain ⟨s₂, hregister, htrace⟩ := htrace.of_cons Emits.single
    have hfresh : s₁.names = .empty := by
      rcases hfee.names with ⟨ctx, sender, m, heq, -⟩ | ⟨-, hsame⟩
      · cases heq
      · exact hsame.trans (Genesis.apply_names hgenesis)
    have hfirst : RegistersUndisplayed s₁ (.message ⟨1, 5⟩ (addressOf 1) (.registerName alice)) := by
      rintro n r - hr
      rw [hfresh] at hr
      cases hr
    -- the other events register nothing
    have hrest := htrace.restrict (P := fun ev => ∀ s, RegistersUndisplayed s ev) (by
      intro ev hev s
      fin_cases hev
      · exact nofun
      · trivial
      · trivial)
    have hmoves : Trace (fun s es s' => Emits s es s' ∧ ∀ ev ∈ es, RegistersUndisplayed s ev) s₂ _
        (executeBlocks ⟨chain⟩ displaying (opened members)) := hrest.mono fun h => ⟨h.1, fun ev hev => h.2 ev hev _⟩
    have hpays : ∀ ev ∈ [StoreEvent.fee (addressOf 1) .native 10], RegistersUndisplayed (opened members) ev := by
      intro ev hev
      cases List.mem_singleton.1 hev
      trivial
    have hregisters : ∀ ev ∈ [StoreEvent.message ⟨1, 5⟩ (addressOf 1) (.registerName alice)],
        RegistersUndisplayed s₁ ev := by
      intro ev hev
      cases List.mem_singleton.1 hev
      exact hfirst
    exact .cons ⟨hfee, hpays⟩ (.cons ⟨hregister, hregisters⟩ hmoves)
  exact (displayed_names_owned _ _ block _ hgenesis ⟨chain⟩ _ hoccurs).1 _ _ hshown

end Sample

end AfroLink
