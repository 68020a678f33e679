import AfroLink.Executor.Theorems.Escrow
import AfroLink.Node.Lemmas.Select

/-!
# What the mempool keeps, and what it offers
-/

namespace AfroLink

theorem mempool_books [Crypto] (limits : MempoolLimits) (ops : List MempoolOp) :
    (Mempool.after limits ops).Consistent ∧ (Mempool.after limits ops).Within ∧
    (Mempool.after limits ops).limits = limits ∧
    ∀ t chainId height senderAccount feePayerAccount e m',
      Mempool.offer t chainId height senderAccount feePayerAccount (Mempool.after limits ops) = .error e m' →
      m' = Mempool.after limits ops := by
  obtain ⟨hconsistent, hwithin, hlimits⟩ := Mempool.after_consistent limits ops
  refine ⟨hconsistent, hwithin, hlimits, fun t chainId height senderAccount feePayerAccount e m' h => ?_⟩
  rw [Mempool.offer_eq] at h
  cases hinsert : (Mempool.after limits ops).insert t chainId height senderAccount feePayerAccount with
  | ok r =>
    rw [hinsert] at h
    cases h
  | error e' =>
    rw [hinsert] at h
    cases h
    rfl

namespace Mempool

/-- All nonces of the sender from the committed one to this are pending. -/
def Includable (m : Mempool) (nextNonce : Address → U64) (t : Transaction) : Prop :=
  nextNonce t.body.sender ≤ t.body.nonce ∧
    ∀ n, nextNonce t.body.sender ≤ n → n < t.body.nonce → (t.body.sender, n) ∈ m.byKey

def HasStale (m : Mempool) (nextNonce : Address → U64) (a : Address) : Prop :=
  ∃ n, n < nextNonce a ∧ (a, n) ∈ m.byKey

variable {m : Mempool} {nextNonce : Address → U64} {t : Transaction} [Crypto]

theorem mem_reachable_iff_includable (hm : m.Consistent) (ht : m.Holds t) :
    t ∈ m.reachable nextNonce ↔ m.Includable nextNonce t ∧ ¬ m.HasStale nextNonce t.body.sender := by
  have hkey : t.key ∈ queueKeys m.byKey.toList :=
    mem_queueKeys.2 (Std.TreeMap.mem_iff_isSome_getElem?.2 (Option.isSome_of_eq_some ht))
  rw [mem_reachable_iff hm]
  constructor
  · rintro ⟨-, hbehind, hall⟩
    refine ⟨⟨hbehind _ hkey, fun n hle hlt => mem_queueKeys.1 (hall n hle hlt)⟩, ?_⟩
    rintro ⟨n, hlt, hn⟩
    exact absurd (hbehind n (mem_queueKeys.2 hn)) hlt.not_ge
  · rintro ⟨⟨-, hall⟩, hstale⟩
    refine ⟨ht, fun n hn => ?_, fun n hle hlt => mem_queueKeys.2 (hall n hle hlt)⟩
    exact le_of_not_gt fun hlt => hstale ⟨n, hlt, mem_queueKeys.1 hn⟩

theorem select_run (hm : m.Consistent) (a : Address) :
    ∃ k, ((m.select nextNonce).filter (·.body.sender == a)).map (·.body.nonce.val) =
      List.range' (nextNonce a).val k := by
  have hinit : m.select nextNonce <+: m.reachable nextNonce := by
    rw [select_eq]
    exact takeFitting_prefix _ _ _
  have hrun := (hinit.filter (·.body.sender == a)).map (·.body.nonce.val)
  rw [reachable_run hm a] at hrun
  have hlength := hrun.length_le
  rw [List.length_range'] at hlength
  rw [List.prefix_iff_eq_take, List.take_range'_of_length_ge hlength] at hrun
  exact ⟨_, hrun⟩

end Mempool

theorem select_spec [Crypto] (limits : MempoolLimits) (ops : List MempoolOp) (m : Mempool)
    (hm : m = Mempool.after limits ops) (nextNonce : Address → U64) :
    (∀ t ∈ m.select nextNonce, m.Holds t) ∧ (m.select nextNonce).Nodup ∧
    (∀ a, ∃ k, ((m.select nextNonce).filter (·.body.sender == a)).map (·.body.nonce.val) =
      List.range' (nextNonce a).val k) ∧
    (∀ block : Block, block.transactions = m.select nextNonce → block.withinSizeLimits = true) ∧
    ((m.selectStops nextNonce = false → ∀ t, m.Holds t → m.Includable nextNonce t → t ∈ m.select nextNonce) ↔
      (∀ t, m.Holds t → m.Includable nextNonce t → ¬ m.HasStale nextNonce t.body.sender) ∨
        ¬ Mempool.BlockFits (m.reachable nextNonce)) := by
  subst hm
  have hm := (Mempool.after_consistent limits ops).1
  generalize Mempool.after limits ops = m at hm
  have hsub : m.select nextNonce ⊆ m.reachable nextNonce := by
    rw [Mempool.select_eq]
    exact (Mempool.takeFitting_prefix _ _ _).subset
  obtain ⟨hall, hstops⟩ := m.selectStops_eq_false_iff nextNonce
  refine ⟨fun t ht => ((Mempool.mem_reachable_iff hm).1 (hsub ht)).1, ?_, Mempool.select_run hm, ?_, ?_⟩
  · have hsorted : (m.select nextNonce).Pairwise fun t u => Mempool.KeyLt t.key u.key := by
      rw [Mempool.select_eq]
      exact (Mempool.reachable_sorted hm).sublist (Mempool.takeFitting_prefix _ _ _).sublist
    refine hsorted.imp ?_
    rintro t u hlt rfl
    rcases hlt with hlt | ⟨-, hlt⟩
    · exact lt_irrefl _ hlt
    · exact lt_irrefl _ hlt
  · intro block hblock
    obtain ⟨hcount, hbytes⟩ := m.select_fits nextNonce
    rw [Block.withinSizeLimits, hblock, if_neg (not_lt.2 hcount)]
    exact Mempool.bytesWithin_of_fits ((Nat.zero_add _).trans_le hbytes)
  · constructor
    · intro h
      by_cases hfits : Mempool.BlockFits (m.reachable nextNonce)
      · have hstops := hstops.2 hfits
        refine .inl fun t ht hincludable => ?_
        have hchosen := h hstops t ht hincludable
        rw [hall.1 hstops, Mempool.mem_reachable_iff_includable hm ht] at hchosen
        exact hchosen.2
      · exact .inr hfits
    · rintro (hclean | hfits) hfalse t ht hincludable
      · rw [hall.1 hfalse, Mempool.mem_reachable_iff_includable hm ht]
        exact ⟨hincludable, hclean t ht hincludable⟩
      · exact absurd (hstops.1 hfalse) hfits

namespace Tagged

open Sample (chain opened)

def queued (nonce : U64) : Transaction := sent 1 nonce [.transfer (addressOf 2) .native 5 none]

/-- It is offered to the pool at height 1, with the account as genesis left it. -/
def offering (nonce : U64) : MempoolOp :=
  .insert (queued nonce) chain 1 (Exec.readOrFresh (opened stakers) (addressOf 1)) none

/-- The next nonce is 5, nonces 3 and 5 are pending, and nothing is chosen. -/
theorem select_starves :
    ((Mempool.after {} [offering 3, offering 5]).selectStops fun _ => 5) = false ∧
    (Mempool.after {} [offering 3, offering 5]).Holds (queued 5) ∧
    ((Mempool.after {} [offering 3, offering 5]).Includable (fun _ => 5) (queued 5)) ∧
    ((Mempool.after {} [offering 3, offering 5]).select fun _ => 5) = [] := by
  have hfacts : ((Mempool.after {} [offering 3, offering 5]).selectStops fun _ => 5) = false ∧
      (Mempool.after {} [offering 3, offering 5]).Holds (queued 5) ∧
      ((Mempool.after {} [offering 3, offering 5]).select fun _ => 5) = [] := by
    decide +kernel
  refine ⟨hfacts.1, hfacts.2.1, ⟨le_refl (5 : U64), fun n hle hlt => ?_⟩, hfacts.2.2⟩
  exact absurd hlt (not_lt.2 hle)

/-- With the committed nonce at 3 the first of the two is chosen. -/
theorem select_spec_queued :
    ((Mempool.after {} [offering 3, offering 5]).select fun _ => 3) = [queued 3] ∧
    ∀ t ∈ (Mempool.after {} [offering 3, offering 5]).select fun _ => 3,
      (Mempool.after {} [offering 3, offering 5]).Holds t :=
  ⟨by decide +kernel, (select_spec {} [offering 3, offering 5] _ rfl fun _ => 3).1⟩

end Tagged

end AfroLink
