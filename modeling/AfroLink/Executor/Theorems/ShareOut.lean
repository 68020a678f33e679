import AfroLink.Executor.Theorems.Records
import AfroLink.Types.Lemmas.ShareOut

/-!
# Share-outs

A share-out divides the fund exactly, as long as the shares are counted without a bound being reached and what a member
owes is an amount.
-/

namespace AfroLink

/-- What a share-out of `fund` is meant to do. -/
structure GroupAccount.SharesOut (g : GroupAccount) (fund : Amount) : Prop where
  noOverflow : g.shareOut fund ≠ .error .overflow
  pays : ∀ g' payments, g.shareOut fund = .ok (g', payments) →
    payments.map (fun p => (p.1, p.2.val)) = g.members.filterMap (Member.payment fund.val (sharesHeld g.members))
  within : ∀ g' payments, g.shareOut fund = .ok (g', payments) → (payments.map (·.2.val)).sum ≤ fund.val
  remainder : ∀ g' payments, g.shareOut fund = .ok (g', payments) →
    fund.val - (payments.map (·.2.val)).sum ≤ (g.members.length - 1) +
      (g.members.map fun m => min (fund.val * m.shares.val / sharesHeld g.members) m.debt).sum
  resets : ∀ g' payments, g.shareOut fund = .ok (g', payments) →
    g' = g.sharedOut ∧ g'.socialFund = g.socialFund ∧ g'.cycle = g.cycle ∧
      ∀ m ∈ g'.members, m.shares = 0 ∧ m.loan = none ∧ m.finesOwed = 0

namespace GroupAccount

variable {g : GroupAccount} {fund : Amount}

theorem shareOut_of_fits (hround : g.roundComplete = true) (hfund : fund ≠ 0) (hshares : 0 < sharesHeld g.members)
    (hfits : ∀ m ∈ g.members, m.DebtFits) :
    ∃ payments, g.shareOut fund = .ok (g.sharedOut, payments) ∧
      payments.map (fun p => (p.1, p.2.val)) = g.members.filterMap (Member.payment fund.val g.totalShares.val) := by
  have hpos : 0 < g.totalShares.val := by
    rw [totalShares_val]
    omega
  obtain ⟨payments, hsettle, hpayments⟩ := settleMembers_of_fits hpos
    (fun m hm => shares_le_totalShares hm) hfits
  refine ⟨payments, ?_, hpayments⟩
  rw [shareOut_of_complete hround hfund hshares, hsettle]
  rfl

theorem SharesOut.of_net (hround : g.roundComplete = true) (hfund : fund ≠ 0) (hshares : 0 < sharesHeld g.members)
    (hfits : ∀ m ∈ g.members, m.DebtFits)
    (hnet : ∀ m ∈ g.members, m.net fund.val g.totalShares.val = m.net fund.val (sharesHeld g.members)) :
    g.SharesOut fund := by
  obtain ⟨payments, hok, hpayments⟩ := shareOut_of_fits hround hfund hshares hfits
  have hsame : g.members.filterMap (Member.payment fund.val g.totalShares.val) =
      g.members.filterMap (Member.payment fund.val (sharesHeld g.members)) :=
    List.filterMap_congr fun m hm => by simp only [Member.payment, hnet m hm]
  rw [hsame] at hpayments
  have hsum : (payments.map (·.2.val)).sum = (g.members.map (Member.net fund.val (sharesHeld g.members))).sum := by
    rw [← Member.sum_payments, ← hpayments, List.map_map]
    rfl
  have honly : ∀ {g' payments'}, g.shareOut fund = .ok (g', payments') → g' = g.sharedOut ∧ payments' = payments := by
    intro g' payments' h
    rw [hok] at h
    cases h
    exact ⟨rfl, rfl⟩
  -- each portion is what is paid and what is withheld
  have hportion : (g.members.map fun m => fund.val * m.shares.val / sharesHeld g.members).sum =
      (g.members.map (Member.net fund.val (sharesHeld g.members))).sum +
        (g.members.map fun m => min (fund.val * m.shares.val / sharesHeld g.members) m.debt).sum := by
    rw [← List.sum_map_add]
    refine congrArg List.sum (List.map_congr_left fun m _ => ?_)
    simp only [Member.net]
    omega
  have hle := Portions.sum_le (l := g.members) fund.val rfl hshares
  have hge := Portions.le_sum_add (l := g.members) fund.val rfl hshares
  simp only [sharesHeld] at hportion hle hge hsum ⊢
  refine ⟨?_, ?_, ?_, ?_, ?_⟩
  · rw [hok]
    simp
  · intro g' payments' h
    rw [(honly h).2]
    exact hpayments
  · intro g' payments' h
    rw [(honly h).2, hsum]
    omega
  · intro g' payments' h
    rw [(honly h).2, hsum]
    simp only [sharesHeld]
    omega
  · intro g' payments' h
    rw [(honly h).1]
    refine ⟨rfl, rfl, rfl, fun m hm => ?_⟩
    obtain ⟨m', -, rfl⟩ := List.mem_map.1 hm
    exact ⟨rfl, rfl, rfl⟩

/-- With the bound as the total, no member gets anything of any fund exactly where none gets anything of the largest,
which is a multiple of the bound. -/
theorem net_bound_eq_zero {m : Member} (hdebt : m.shares.val * (2 ^ 64 + 1) ≤ m.debt) {total : ℕ}
    (htotal : 2 ^ 64 - 1 ≤ total) : m.net fund.val total = 0 := by
  have hlt := fund.isLt
  have hportion : fund.val * m.shares.val / total ≤ m.shares.val * (2 ^ 64 + 1) := by
    refine Nat.div_le_of_le_mul ?_
    calc fund.val * m.shares.val
      _ ≤ (2 ^ 64 - 1) * (2 ^ 64 + 1) * m.shares.val := Nat.mul_le_mul_right _ (by omega)
      _ = (2 ^ 64 - 1) * (m.shares.val * (2 ^ 64 + 1)) := by ring
      _ ≤ total * (m.shares.val * (2 ^ 64 + 1)) := Nat.mul_le_mul_right _ htotal
  simp only [Member.net]
  omega

theorem le_debt_of_net_eq {m : Member} {total : ℕ} (htotal : 2 ^ 64 ≤ total)
    (h : m.net (2 ^ 128 - 1) (2 ^ 64 - 1) = m.net (2 ^ 128 - 1) total) : m.shares.val * (2 ^ 64 + 1) ≤ m.debt := by
  rcases Nat.eq_zero_or_pos m.shares.val with hzero | hpos
  · omega
  have hexact : (2 ^ 128 - 1) * m.shares.val / (2 ^ 64 - 1) = m.shares.val * (2 ^ 64 + 1) := by omega
  have hless : (2 ^ 128 - 1) * m.shares.val / total < m.shares.val * (2 ^ 64 + 1) := by
    refine (Nat.div_lt_iff_lt_mul (by omega)).2 ?_
    calc (2 ^ 128 - 1) * m.shares.val
      _ < m.shares.val * (2 ^ 64 + 1) * 2 ^ 64 := by omega
      _ ≤ m.shares.val * (2 ^ 64 + 1) * total := Nat.mul_le_mul_left _ htotal
  simp only [Member.net, hexact] at h
  omega

end GroupAccount

theorem share_out_exact_iff (g : GroupAccount) (hround : g.roundComplete = true) :
    (∀ fund : Amount, fund ≠ 0 → g.SharesOut fund) ↔
      GroupAccount.sharesHeld g.members = 0 ∨
      (∀ m ∈ g.members, m.DebtFits) ∧
        (GroupAccount.sharesHeld g.members < 2 ^ 64 ∨ ∀ m ∈ g.members, m.shares.val * (2 ^ 64 + 1) ≤ m.debt) := by
  have htotal := GroupAccount.totalShares_val g
  by_cases hnone : GroupAccount.sharesHeld g.members = 0
  · refine ⟨fun _ => .inl hnone, fun _ fund hfund => ?_⟩
    have herror := GroupAccount.shareOut_of_no_shares hround hfund hnone
    refine ⟨?_, ?_, ?_, ?_, ?_⟩ <;> rw [herror] <;> nofun
  have hshares : 0 < GroupAccount.sharesHeld g.members := Nat.pos_of_ne_zero hnone
  rw [or_iff_right hnone]
  constructor
  · intro hall
    have hfits : ∀ m ∈ g.members, m.DebtFits := by
      by_contra hnot
      refine (hall 1 (by decide)).noOverflow ?_
      rw [GroupAccount.shareOut_of_complete hround (by decide) hshares, GroupAccount.settleMembers_of_not_fits
        (by omega) (fun m hm => GroupAccount.shares_le_totalShares hm) hnot]
      rfl
    refine ⟨hfits, ?_⟩
    by_contra hneither
    rw [not_or, not_lt] at hneither
    obtain ⟨hbound, hdebts⟩ := hneither
    have hlast : (⟨2 ^ 128 - 1, by decide⟩ : Amount) ≠ 0 := by decide
    obtain ⟨payments, hok, hpayments⟩ := GroupAccount.shareOut_of_fits hround hlast hshares hfits
    have hpaid := (hall _ hlast).pays _ _ hok
    -- every portion of the larger total is the smaller one, so equal sums make equal portions
    have hle : ∀ m ∈ g.members,
        m.net (2 ^ 128 - 1) (GroupAccount.sharesHeld g.members) ≤ m.net (2 ^ 128 - 1) g.totalShares.val := by
      intro m _
      exact Nat.sub_le_sub_right (Nat.div_le_div_left (by omega) (by omega)) _
    have hsum : (g.members.map (Member.net (2 ^ 128 - 1) (GroupAccount.sharesHeld g.members))).sum =
        (g.members.map (Member.net (2 ^ 128 - 1) g.totalShares.val)).sum := by
      rw [← Member.sum_payments, ← Member.sum_payments, ← hpaid, hpayments]
    have hnet := Portions.eq_of_sum_eq hle hsum
    have hsaturated : g.totalShares.val = 2 ^ 64 - 1 := by omega
    rw [hsaturated] at hnet
    exact hdebts fun m hm => GroupAccount.le_debt_of_net_eq hbound (hnet m hm).symm
  · rintro ⟨hfits, hcase⟩ fund hfund
    refine .of_net hround hfund hshares hfits fun m hm => ?_
    rcases Nat.lt_or_ge (GroupAccount.sharesHeld g.members) (2 ^ 64) with hlt | hge
    · rw [show g.totalShares.val = GroupAccount.sharesHeld g.members by omega]
    · have hdebt := hcase.resolve_left hge.not_gt m hm
      rw [GroupAccount.net_bound_eq_zero hdebt (by omega), GroupAccount.net_bound_eq_zero hdebt (by omega)]

namespace Sample

/-- No charge, and a fine of all that is outstanding when a loan is late. -/
def finingRules : ShareRules := { lendingRules with serviceChargeBps := 0, lateFineBps := 10000 }

/-- Account 1 founds the group, buys eight shares of `2 ^ 124` and asks for all of it. -/
def borrowing : Transaction :=
  sent 1 0 [
    .createGroup "chama" [⟨addressOf 1, .treasurer⟩, ⟨addressOf 2, .member⟩] ⟨2 ^ 124, .native, 1⟩
      (.accumulate finingRules) ⟨1, 2⟩,
    .buyShares lendingGroup 8,
    .proposeGroupAction lendingGroup (addressOf 1) (.loan (2 ^ 127) [])]

def closing (nonce : U64) : Transaction := sent 1 nonce [.closeCycle lendingGroup]

def overdue : List (BlockContext × List Transaction) :=
  [(⟨1, 5⟩, [borrowing]), (⟨2, 6⟩, [approving]), (⟨3, 7⟩, [closing 2]), (⟨5, 8⟩, [closing 3])]

def groupAfter (n : ℕ) : Option GroupAccount :=
  ((executeBlocks ⟨chain⟩ (overdue.take n) (opened lenders)).record lendingGroup).asGroup

/-- The loan of `2 ^ 127` and the fine of as much are no amount together. -/
theorem share_out_overflows :
    (∃ b, Runs ((genesisOf lenders).apply .devnet) .empty b (opened lenders)) ∧
    (groupAfter 4).map (fun g => (g.roundComplete, decide (g.shareOut 1 = .error .overflow))) = some (true, true) := by
  refine ⟨lenders_genesis, ?_⟩
  decide +kernel

/-- Before the loan is late it is shared out, whatever the fund. -/
theorem share_out_exact_in_time :
    ∃ g, groupAfter 3 = some g ∧ ∀ fund : Amount, fund ≠ 0 → g.SharesOut fund := by
  have hgroup : (groupAfter 3).any (fun g => g.roundComplete && decide (GroupAccount.sharesHeld g.members = 8 ∧
      ∀ m ∈ g.members, m.DebtFits)) = true := by decide +kernel
  obtain ⟨g, hg, hfacts⟩ := (Option.any_eq_true _ _).1 hgroup
  rw [Bool.and_eq_true, decide_eq_true_eq] at hfacts
  obtain ⟨hround, hshares, hfits⟩ := hfacts
  exact ⟨g, hg, (share_out_exact_iff g hround).2 (.inr ⟨hfits, .inl (by omega)⟩)⟩

end Sample

end AfroLink
