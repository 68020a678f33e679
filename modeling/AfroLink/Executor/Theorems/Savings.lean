import AfroLink.Executor.Lemmas.Savings
import AfroLink.Executor.Theorems.ShareOut

/-!
# Credit

Along every run from genesis the record of a member counts every cycle once, as paid or as missed.
-/

namespace AfroLink

/-! ## Every cycle once -/

/-- Every cycle up to `cycle` is counted once, the open one when it is paid. -/
structure Member.CountsTo (m : Member) (cycle : U64) : Prop where
  counted : m.contributionsMade.val + m.contributionsMissed.val = cycle.val + if m.hasPaid cycle then 1 else 0
  past : ∀ c, m.lastPaidCycle = some c → c ≤ cycle

section

variable {g : GroupAccount} {sender : Address} {msg : Message} {m m' : Member} {n : U32} {rules : ShareRules}

theorem Member.CountsTo.congr {cycle : U64} (h : m.CountsTo cycle) (hmade : m'.contributionsMade = m.contributionsMade)
    (hmissed : m'.contributionsMissed = m.contributionsMissed) (hlast : m'.lastPaidCycle = m.lastPaidCycle) :
    m'.CountsTo cycle := by
  obtain ⟨hcounted, hpast⟩ := h
  have hpaid : m'.hasPaid cycle = m.hasPaid cycle := by rw [Member.hasPaid, Member.hasPaid, hlast]
  exact ⟨by rwa [hmade, hmissed, hpaid], by rwa [hlast]⟩

theorem Member.CountsTo.pay {cycle : U64} (h : m.CountsTo cycle) (hcycle : cycle < Fin.last _)
    (hpaid : m.hasPaid cycle = false) (hmade : m'.contributionsMade = m.contributionsMade.saturatingAdd 1)
    (hmissed : m'.contributionsMissed = m.contributionsMissed) (hlast : m'.lastPaidCycle = some cycle) :
    m'.CountsTo cycle := by
  obtain ⟨hcounted, -⟩ := h
  have hlt : cycle.val < 2 ^ 64 - 1 := hcycle
  have hone : (1 : U64).val = 1 := rfl
  refine ⟨?_, fun c hc => ?_⟩
  · rw [hpaid] at hcounted
    rw [hmade, hmissed, Fin.saturatingAdd_val, hone]
    simp only [Member.hasPaid, hlast, beq_self_eq_true, if_true]
    simp only [Bool.false_eq_true, if_false] at hcounted
    omega
  · rw [hlast, Option.some.injEq] at hc
    exact hc.ge

theorem SavingMove.countsTo (h : SavingMove g sender msg m m') (hm : m.CountsTo g.cycle)
    (hcycle : g.cycle < Fin.last _) : m'.CountsTo (if msg.closes then g.cycle.saturatingAdd 1 else g.cycle) := by
  have hlt : g.cycle.val < 2 ^ 64 - 1 := hcycle
  have hone : (1 : U64).val = 1 := rfl
  cases h with
  | kept hmsg h =>
    rw [Message.closes_of_saves hmsg]
    exact hm.congr h.made h.missed h.paid
  | contributed _ hpaid hmade hmissed hlast _ _ => exact hm.pay hcycle hpaid hmade hmissed hlast
  | bought _ _ h =>
    rcases h.credit with ⟨-, hpaid, hmade, hlast⟩ | ⟨hmade, hlast⟩
    · exact hm.pay hcycle hpaid hmade h.missed hlast
    · exact hm.congr hmade h.missed hlast
  | closed hmsg hmade hmissed hlast _ _ =>
    rw [hmsg, if_pos rfl]
    have hnext : (g.cycle.saturatingAdd 1).val = g.cycle.val + 1 := by
      rw [Fin.saturatingAdd_val, hone]
      omega
    -- the new cycle is beyond every cycle that was paid
    have hunpaid : m'.hasPaid (g.cycle.saturatingAdd 1) = false := by
      rw [Member.hasPaid, beq_eq_false_iff_ne, hlast]
      intro heq
      have hle : (g.cycle.saturatingAdd 1).val ≤ g.cycle.val := hm.past _ heq
      omega
    refine ⟨?_, fun c hc => ?_⟩
    · have hcounted := hm.counted
      rw [hunpaid, hmade, hmissed, hnext]
      cases hpaid : m.hasPaid g.cycle with
      | true =>
        rw [hpaid] at hcounted
        simpa using hcounted
      | false =>
        rw [hpaid] at hcounted
        simp only [Bool.false_eq_true, if_false, Fin.saturatingAdd_val, hone] at hcounted ⊢
        omega
    · rw [hlast] at hc
      exact (hm.past c hc).trans (Fin.le_saturatingAdd _ _)
  | settled hmade hmissed hlast _ => exact hm.congr hmade hmissed hlast

end

/-- Every group and member, until the cycles of the group can be counted no further. -/
def Store.CreditCounted (s : Store) : Prop :=
  ∀ a g, s.group a = some g → g.cycle < Fin.last _ → ∀ m ∈ g.members, m.CountsTo g.cycle

theorem Emits.creditCounted [Crypto] {s s' : Store} {es : List StoreEvent} (h : Emits s es s') (hs : s.Chartered)
    (hcounted : s.CreditCounted) : s'.CreditCounted := by
  intro a g' hg' hcycle m' hm'
  obtain ⟨ev, rfl, hchange⟩ := h.groupChange a
  cases hchange with
  | quiet hev hgroup => exact hcounted a g' (hgroup ▸ hg') hcycle m' hm'
  | lost hev hgroup => cases hgroup.symm.trans hg'
  | founded hbefore hafter hnew hmoney =>
    cases hafter.symm.trans hg'
    obtain ⟨-, -, -, -, -, -, rfl⟩ := GroupAccount.new_eq_ok hnew
    obtain ⟨f, -, rfl⟩ := List.mem_map.1 hm'
    exact ⟨rfl, nofun⟩
  | @edited ctx sender payer msg g _ payments hedited =>
    cases hedited.after.symm.trans hg'
    obtain ⟨m, hm, -, hmove⟩ := exists_of_forall₂ (hedited.edit.savingMoves (hs a g hedited.before).distinct) hm'
    have hnext := hedited.edit.cycle
    have hbefore : g.cycle < Fin.last _ := by
      refine lt_of_le_of_lt ?_ hcycle
      rw [hnext]
      split
      · exact Fin.le_saturatingAdd _ _
      · exact le_refl _
    rw [hnext]
    exact hmove.countsTo (hcounted a g hedited.before hbefore m hm) hbefore

theorem Member.reliabilityBps_le {m : Member} {bps : U32} (h : m.reliabilityBps = some bps) : bps.val ≤ 10000 := by
  unfold Member.reliabilityBps at h
  simp only at h
  split_ifs at h with hdue hfits
  cases h
  have hlt := m.contributionsMade.isLt
  have hval : m.contributionsDue.val = min (m.contributionsMade.val + m.contributionsMissed.val) (2 ^ 64 - 1) :=
    Fin.saturatingAdd_val _ _
  have hpos : 0 < m.contributionsDue.val := Nat.pos_of_ne_zero fun h => hdue (Fin.ext h)
  refine Nat.div_le_of_le_mul ?_
  omega

theorem Member.reliabilityBps_eq {m : Member} {due : ℕ}
    (hdue : m.contributionsMade.val + m.contributionsMissed.val = due) (hlt : due < 2 ^ 64)
    (hmade : m.contributionsMade.val * 10000 < 2 ^ 64) :
    m.reliabilityBps.map Fin.val = if due = 0 then none else some (m.contributionsMade.val * 10000 / due) := by
  have hval : m.contributionsDue.val = due := by
    have hval : m.contributionsDue.val = min (m.contributionsMade.val + m.contributionsMissed.val) (2 ^ 64 - 1) :=
      Fin.saturatingAdd_val _ _
    omega
  have hzero : m.contributionsDue = 0 ↔ due = 0 := by rw [Fin.ext_iff, hval]; rfl
  unfold Member.reliabilityBps
  simp only [hzero, hval]
  have hmin : min (m.contributionsMade.val * 10000) (2 ^ 64 - 1) = m.contributionsMade.val * 10000 := by omega
  rw [hmin]
  split_ifs with hnone hfits
  · rfl
  · rfl
  · have hle : m.contributionsMade.val * 10000 / due ≤ 10000 := Nat.div_le_of_le_mul (by omega)
    omega

/-- In every state of a run from genesis, for every group that can still count its cycles. -/
theorem credit_counts_every_cycle [Crypto] [StateRoot] (genesis : Genesis) (limits : GenesisLimits) (block : Block)
    (start : Store) (hgenesis : Runs (genesis.apply limits) .empty block start) (e : Executor) (s : Store)
    (hs : Occurs e start s) (a : Address) (g : GroupAccount) (hg : s.group a = some g) (hcycle : g.cycle < Fin.last _)
    (m : Member) (hm : m ∈ g.members) :
    m.contributionsMade.val + m.contributionsMissed.val = g.cycle.val + (if m.hasPaid g.cycle then 1 else 0) ∧
    (m.contributionsMade.val * 10000 < 2 ^ 64 → m.reliabilityBps.map Fin.val =
      if m.contributionsMade.val + m.contributionsMissed.val = 0 then none
      else some (m.contributionsMade.val * 10000 / (m.contributionsMade.val + m.contributionsMissed.val))) ∧
    ∀ bps, m.reliabilityBps = some bps → bps.val ≤ 10000 := by
  obtain ⟨blocks, es, -, htrace⟩ := hs
  have hnone := Genesis.apply_group hgenesis
  have hstart : start.CreditCounted := fun a g hg => by cases (hnone a).symm.trans hg
  obtain ⟨-, hcounted⟩ := htrace.preserves (I := fun s => s.Chartered ∧ s.CreditCounted)
    (fun _ _ _ hI hstep => ⟨hstep.chartered hI.1, hstep.creditCounted hI.1 hI.2⟩)
    ⟨Genesis.apply_chartered hgenesis, hstart⟩
  have hcount := (hcounted a g hg hcycle m hm).counted
  have hlt : g.cycle.val < 2 ^ 64 - 1 := hcycle
  refine ⟨hcount, Member.reliabilityBps_eq rfl ?_, fun bps => Member.reliabilityBps_le⟩
  split at hcount <;> omega

namespace Sample

/-- Account 1 bought its shares in the first cycle and nothing in the second, account 2 never bought any. -/
theorem credit_counts_every_cycle_overdue :
    ∃ g, (executeBlocks ⟨chain⟩ overdue (opened lenders)).group lendingGroup = some g ∧ g.cycle = 2 ∧
      g.members.map (·.reliabilityBps) = [some 5000, some 0] ∧
      ∀ m ∈ g.members, m.contributionsMade.val + m.contributionsMissed.val =
        g.cycle.val + if m.hasPaid g.cycle then 1 else 0 := by
  obtain ⟨b, hgenesis⟩ := lenders_genesis
  have hgroup : ((executeBlocks ⟨chain⟩ overdue (opened lenders)).group lendingGroup).any (fun g =>
      decide (g.cycle = 2) && decide (g.members.map (·.reliabilityBps) = [some 5000, some 0])) = true := by
    decide +kernel
  obtain ⟨g, hg, hfacts⟩ := (Option.any_eq_true _ _).1 hgroup
  rw [Bool.and_eq_true, decide_eq_true_eq, decide_eq_true_eq] at hfacts
  refine ⟨g, hg, hfacts.1, hfacts.2, fun m hm => ?_⟩
  have hcycle : g.cycle < Fin.last _ := by
    rw [hfacts.1]
    decide
  exact (credit_counts_every_cycle _ _ b _ hgenesis ⟨chain⟩ _ (executeBlocks_occurs _ _ _) _ g hg hcycle m hm).1

end Sample

end AfroLink
