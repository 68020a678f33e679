import AfroLink.P2p.Lemmas.Manager
import AfroLink.P2p.Theorems.AddrBook

/-!
# Catching up holds only what was asked for

The requests outstanding, the blocks staged and the blocks handed over, in every run of the peer manager.
-/

open Std (TreeMap)

namespace AfroLink.Logged

structure PeerSound (log : SyncLog) (id : PeerId) (p : Connected) : Prop where
  tip : ∀ t, p.tip = some t → ∃ h, t ≤ h ∧ (id, h) ∈ log.claims
  awaits : ∀ w, p.awaitingBlock = some w → (id, w) ∈ log.asked
  abandoned : ∀ w, p.abandoned = some w → (id, w) ∈ log.asked
  answers : log.accepted.count id + p.awaitingBlock.toList.length + p.abandoned.toList.length ≤
    log.asked.countP (·.1 = id)

structure Sound (s : Logged) : Prop where
  peers : ∀ (id : PeerId) (p : Connected), s.1.peers[id]? = some p → PeerSound s.2 id p
  accepted : ∀ id, s.2.accepted.count id ≤ s.2.asked.countP (·.1 = id)
  asked : ∀ id w, (id, w) ∈ s.2.asked → ∃ h, w ≤ h ∧ (id, h) ∈ s.2.claims
  apart : ∀ (id id' : PeerId) (p p' : Connected) (w : Height), s.1.peers[id]? = some p → s.1.peers[id']? = some p' →
    p.awaitingBlock = some w → p'.awaitingBlock = some w → id = id'
  busy : Busy s.1.peers MAX_BLOCKS_IN_FLIGHT
  staged_le : s.1.staged.size ≤ MAX_STAGED_BLOCKS
  staged : ∀ (h : Height) (id : PeerId) (sync : SyncBlock),
    s.1.staged[h]? = some (id, sync) → sync.height = h ∧ (id, h) ∈ s.2.asked

section

variable {fits : Height → SyncBlock → Prop} {s s' : Logged} {log log' : SyncLog} {id : PeerId} {p p' : Connected}

theorem PeerSound.same (h : PeerSound log id p) (hsame : Same p p') : PeerSound log id p' := by
  obtain ⟨-, -, htip, hawaiting, habandoned⟩ := hsame
  constructor
  · rw [htip]
    exact h.tip
  · rw [hawaiting]
    exact h.awaits
  · rw [habandoned]
    exact h.abandoned
  · rw [hawaiting, habandoned]
    exact h.answers

theorem PeerSound.mono (h : PeerSound log id p) (hclaims : log.claims ⊆ log'.claims) (hasked : log.asked ⊆ log'.asked)
    (hcount : log.asked.countP (·.1 = id) ≤ log'.asked.countP (·.1 = id))
    (haccepted : log'.accepted.count id = log.accepted.count id) : PeerSound log' id p where
  tip t ht := by
    obtain ⟨c, hle, hc⟩ := h.tip t ht
    exact ⟨c, hle, hclaims hc⟩
  awaits w hw := hasked (h.awaits w hw)
  abandoned w hw := hasked (h.abandoned w hw)
  answers := by
    rw [haccepted]
    exact h.answers.trans hcount

theorem PeerSound.age (h : PeerSound log id p) : PeerSound log id p.age := by
  rw [Connected.age]
  split
  · dsimp only
    split
    · refine ⟨h.tip, (fun w hw => nomatch hw), h.awaits, ?_⟩
      have := h.answers
      simp only [Option.toList_none, List.length_nil]
      omega
    · exact h.same ⟨rfl, rfl, rfl, rfl, rfl⟩
  · exact h

theorem age_awaitingBlock {w : Height} (h : p.age.awaitingBlock = some w) : p.awaitingBlock = some w := by
  rw [Connected.age] at h
  split at h
  · dsimp only at h
    split at h
    · cases h
    · exact h
  · exact h

theorem Sound.transfer (h : Sound s) (hasked : s'.2.asked = s.2.asked) (hclaims : s.2.claims ⊆ s'.2.claims)
    (hpeers : ∀ (id : PeerId) (p' : Connected), s'.1.peers[id]? = some p' → PeerSound s'.2 id p' ∧
      ∀ w, p'.awaitingBlock = some w → ∃ p : Connected, s.1.peers[id]? = some p ∧ p.awaitingBlock = some w)
    (haccepted : ∀ id, s'.2.accepted.count id ≤ s.2.asked.countP (·.1 = id))
    (hstaged_le : s'.1.staged.size ≤ MAX_STAGED_BLOCKS)
    (hstaged : ∀ (h : Height) (id : PeerId) (sync : SyncBlock), s'.1.staged[h]? = some (id, sync) →
      s.1.staged[h]? = some (id, sync) ∨ sync.height = h ∧ (id, h) ∈ s.2.asked) : Sound s' where
  peers id p' hp' := (hpeers id p' hp').1
  accepted id := by
    rw [hasked]
    exact haccepted id
  asked id w hw := by
    rw [hasked] at hw
    obtain ⟨c, hle, hc⟩ := h.asked id w hw
    exact ⟨c, hle, hclaims hc⟩
  apart id id' p p' w hp hp' hw hw' := by
    obtain ⟨q, hq, hqw⟩ := (hpeers id p hp).2 w hw
    obtain ⟨q', hq', hqw'⟩ := (hpeers id' p' hp').2 w hw'
    exact h.apart id id' q q' w hq hq' hqw hqw'
  busy := by
    intro S hS
    refine h.busy S fun id hid => ?_
    obtain ⟨p', w, hp', hw⟩ := hS id hid
    obtain ⟨p, hp, hpw⟩ := (hpeers id p' hp').2 w hw
    exact ⟨p, w, hp, hpw⟩
  staged_le := hstaged_le
  staged k id sync hk := by
    rw [hasked]
    rcases hstaged k id sync hk with hk | hk
    · exact h.staged k id sync hk
    · exact hk

variable {m : Manager} {r : Manager × List Directive}

theorem Sound.update (h : Sound (m, log)) (log' : SyncLog) (p' : Connected)
    (staged : TreeMap Height (PeerId × SyncBlock)) (hp : m.peers[id]? = some p)
    (hasked : log'.asked = log.asked) (hclaims : log.claims ⊆ log'.claims)
    (haccepted : ∀ x, x ≠ id → log'.accepted.count x = log.accepted.count x) (hsound : PeerSound log' id p')
    (hawaits : ∀ w, p'.awaitingBlock = some w → p.awaitingBlock = some w) (hstaged_le : staged.size ≤ MAX_STAGED_BLOCKS)
    (hstaged : ∀ (h : Height) (x : PeerId) (sync : SyncBlock), staged[h]? = some (x, sync) →
      m.staged[h]? = some (x, sync) ∨ sync.height = h ∧ (x, h) ∈ log.asked) :
    Sound ({ m.update id p' with staged }, log') := by
  refine h.transfer hasked hclaims (fun x q hq => ?_) (fun x => ?_) hstaged_le hstaged
  · have hx : (m.update id p').peers[x]? = some q := hq
    rw [getElem?_update] at hx
    split at hx
    · rename_i heq
      rw [heq, ← Option.some.inj hx]
      exact ⟨hsound, fun w hw => ⟨p, hp, hawaits w hw⟩⟩
    · refine ⟨(h.peers x q hx).mono hclaims ?_ ?_ (haccepted x ‹_›), fun w hw => ⟨q, hx, hw⟩⟩
      · rw [hasked]
        exact List.Subset.refl _
      · rw [hasked]
  · by_cases hx : x = id
    · have hanswers := hsound.answers
      rw [hasked] at hanswers
      rw [hx]
      exact (Nat.le_add_right _ _).trans ((Nat.le_add_right _ _).trans hanswers)
    · exact (haccepted x hx).trans_le (h.accepted x)

theorem getElem?_map_peers (peers : TreeMap PeerId Connected) (g : Connected → Connected) (id : PeerId) :
    (peers.map fun _ => g)[id]? = peers[id]?.map g := TreeMap.getElem?_map

theorem Sound.age (h : Sound (m, log)) (g : Connected → Connected)
    (hg : ∀ {id p}, PeerSound log id p → PeerSound log id (g p))
    (hawaits : ∀ {p w}, (g p).awaitingBlock = some w → p.awaitingBlock = some w) :
    Sound ({ m with peers := m.peers.map fun _ => g }, log) := by
  refine h.transfer rfl (List.Subset.refl _) (fun id p' hp' => ?_) h.accepted h.staged_le fun _ _ _ => .inl
  obtain ⟨p, hp, rfl⟩ := Option.map_eq_some_iff.1 ((getElem?_map_peers m.peers g id).symm.trans hp')
  exact ⟨hg (h.peers id p hp), fun w hw => ⟨p, hp, hawaits hw⟩⟩

theorem getElem?_of_erase {β : Type} {κ : Type} [Ord κ] [Std.TransOrd κ] [Std.LawfulEqOrd κ] {t : TreeMap κ β} {k x : κ}
    {v : β} (h : (t.erase k)[x]? = some v) : t[x]? = some v := by
  rw [TreeMap.getElem?_erase] at h
  split at h
  · cases h
  · exact h

theorem Sound.request {want tip : Height} (h : Sound (m, log)) (hp : m.peers[id]? = some p)
    (free : p.awaitingBlock = none) (holds : p.tip = some tip) (reaches : want ≤ tip)
    (unasked : ∀ (id' : PeerId) (p' : Connected), m.peers[id']? = some p' → p'.awaitingBlock ≠ some want)
    (room : Busy m.peers (MAX_BLOCKS_IN_FLIGHT - 1)) :
    Sound (m.update id { p with awaitingBlock := some want, requestAge := 0 },
      { log with asked := log.asked ++ [(id, want)] }) := by
  have hmono : ∀ x, log.asked.countP (·.1 = x) ≤ (log.asked ++ [(id, want)]).countP (·.1 = x) := by
    intro x
    rw [List.countP_append]
    exact Nat.le_add_right _ _
  have hsub : log.asked ⊆ log.asked ++ [(id, want)] := List.subset_append_left _ _
  have hpeer : PeerSound log id p := h.peers id p hp
  obtain ⟨c, hle, hc⟩ := hpeer.tip tip holds
  refine ⟨fun x q hq => ?_, fun x => (h.accepted x).trans (hmono x), fun x w hw => ?_, fun x y q r w hq hr hqw hrw => ?_,
    room.update id _, h.staged_le, fun k x sync hk => ?_⟩
  · rw [getElem?_update] at hq
    split at hq
    · subst x
      cases hq
      refine ⟨hpeer.tip, fun w hw => ?_, fun w hw => hsub (hpeer.abandoned w hw), ?_⟩
      · cases hw
        exact List.mem_append_right _ (List.mem_singleton_self _)
      · have := hpeer.answers
        simp only [free, Option.toList_none, List.length_nil, Option.toList_some, List.length_singleton,
          List.countP_append, List.countP_singleton, decide_true, if_true] at this ⊢
        omega
    · exact (h.peers x q hq).mono (List.Subset.refl _) hsub (hmono x) rfl
  · rcases List.mem_append.1 hw with hw | hw
    · exact h.asked x w hw
    · cases List.mem_singleton.1 hw
      exact ⟨c, reaches.trans hle, hc⟩
  · -- nobody else was asked for this height
    rw [getElem?_update] at hq hr
    split at hq <;> split at hr
    · exact ‹x = id›.trans ‹y = id›.symm
    · cases hq
      cases hqw
      exact absurd hrw (unasked y r hr)
    · cases hr
      cases hrw
      exact absurd hqw (unasked x q hq)
    · exact h.apart x y q r w hq hr hqw hrw
  · obtain ⟨hheight, hmem⟩ := h.staged k x sync hk
    exact ⟨hheight, hsub hmem⟩

theorem Sound.answered {sync : SyncBlock} (h : Sound (m, log)) (hp : m.peers[id]? = some p)
    (hasked : p.awaitingBlock = some sync.height ∨ p.abandoned = some sync.height) :
    PeerSound { log with accepted := log.accepted ++ [id] } id (Manager.answered p sync.height) := by
  have hpeer : PeerSound log id p := h.peers id p hp
  have hmem : (id, sync.height) ∈ log.asked := hasked.elim (hpeer.awaits _) (hpeer.abandoned _)
  obtain ⟨c, hle, hc⟩ := h.asked id _ hmem
  refine ⟨fun t ht => ?_, (fun w hw => nomatch hw), fun w hw => ?_, ?_⟩
  · cases htip : p.tip with
    | none =>
      simp only [Manager.answered, htip, Option.some.injEq] at ht
      exact ⟨c, ht ▸ hle, hc⟩
    | some tip =>
      obtain ⟨c', hle', hc'⟩ := hpeer.tip tip htip
      simp only [Manager.answered, htip, Option.some.injEq] at ht
      rcases max_choice tip sync.height with hmax | hmax
      · exact ⟨c', by rw [← ht, hmax]; exact hle', hc'⟩
      · exact ⟨c, by rw [← ht, hmax]; exact hle, hc⟩
  · simp only [Manager.answered] at hw
    split at hw
    · cases hw
    · exact hpeer.abandoned w hw
  · -- the request that is answered was counted
    have hanswers := hpeer.answers
    simp only [Manager.answered, List.count_append, List.count_singleton_self, Option.toList_none, List.length_nil]
    rcases hasked with hawaits | habandoned
    · rw [if_neg (by simp [hawaits])]
      rw [hawaits, Option.toList_some, List.length_singleton] at hanswers
      omega
    · rw [habandoned, Option.toList_some, List.length_singleton] at hanswers
      split
      · rw [Option.toList_none, List.length_nil]
        omega
      · rename_i hawaits
        rw [not_ne_iff.1 hawaits, Option.toList_some, List.length_singleton] at hanswers
        rw [habandoned, Option.toList_some, List.length_singleton]
        omega

theorem Sound.act (h : Sound s) (hact : Act fits s s') : Sound s' := by
  cases hact with
  | @other m m' log peers staged height limits =>
    refine h.transfer rfl (List.Subset.refl _) (fun id p hp => ?_) h.accepted ?_ fun k id sync hk => .inl ?_
    · have hp : m'.peers[id]? = some p := hp
      rw [peers] at hp
      exact ⟨h.peers id p hp, fun w hw => ⟨p, hp, hw⟩⟩
    · exact staged ▸ h.staged_le
    · exact staged ▸ hk
  | setHeight m log height =>
    refine h.transfer rfl (List.Subset.refl _) (fun id p hp => ⟨?_, fun w hw => ⟨p, hp, hw⟩⟩) h.accepted ?_
      fun k id sync hk => .inl ?_
    · exact (h.peers id p hp).mono (List.Subset.refl _) (List.Subset.refl _) le_rfl rfl
    · exact (TreeMap.size_filter_le_size).trans h.staged_le
    · have hk : (m.staged.filter fun staged _ => height ≤ staged)[k]? = some (id, sync) := hk
      rw [TreeMap.getElem?_filter'] at hk
      exact (Option.filter_eq_some_iff.1 hk).1
  | forget m log id =>
    refine h.transfer rfl (List.Subset.refl _) (fun x p hp => ?_) h.accepted h.staged_le fun _ _ _ => .inl
    have hp := getElem?_of_erase hp
    exact ⟨h.peers x p hp, fun w hw => ⟨p, hp, hw⟩⟩
  | refill m log elapsed => exact h.age _ (fun hp => hp.same ⟨rfl, rfl, rfl, rfl, rfl⟩) fun hw => hw
  | age m log => exact h.age _ PeerSound.age age_awaitingBlock
  | revise known same =>
    exact h.update _ _ _ known rfl (List.Subset.refl _) (fun _ _ => rfl) ((h.peers _ _ known).same same)
      (fun w hw => same.awaitingBlock ▸ hw) h.staged_le fun _ _ _ => .inl
  | @claim m log id p height known =>
    have hpeer : PeerSound log id p := h.peers id p known
    refine h.update { log with claims := log.claims ++ [(id, height)] } _ _ known rfl (List.subset_append_left _ _)
      (fun _ _ => rfl) ?_ (fun w hw => hw) h.staged_le fun _ _ _ => .inl
    refine ⟨fun t ht => ?_, hpeer.awaits, hpeer.abandoned, hpeer.answers⟩
    cases ht
    exact ⟨height, le_rfl, List.mem_append_right _ (List.mem_singleton_self _)⟩
  | @deny m log id p height known awaits =>
    have hpeer : PeerSound log id p := h.peers id p known
    obtain ⟨c, hle, hc⟩ := h.asked id height (hpeer.awaits height awaits)
    refine h.update log { p with awaitingBlock := none, requestAge := 0, tip := some (height.saturatingSub 1) } _ known
      rfl (List.Subset.refl _) (fun _ _ => rfl) ?_ (fun w hw => nomatch hw) h.staged_le fun _ _ _ => .inl
    refine ⟨fun t ht => ⟨c, ?_, hc⟩, (fun w hw => nomatch hw), hpeer.abandoned, ?_⟩
    · cases ht
      exact (Nat.sub_le height.val 1).trans hle
    · have := hpeer.answers
      simp only [Option.toList_none, List.length_nil]
      omega
  | @accept m log id p sync staged known asked fit keeps =>
    have hpeer : PeerSound log id p := h.peers id p known
    have hmem : (id, sync.height) ∈ log.asked := asked.elim (hpeer.awaits _) (hpeer.abandoned _)
    refine h.update { log with accepted := log.accepted ++ [id] } (Manager.answered p sync.height) staged known rfl
      (List.Subset.refl _) (fun x hx => ?_) (h.answered known asked) (fun w hw => nomatch hw) ?_ fun k x sync' hk => ?_
    · simp [List.count_append, Ne.symm hx]
    · rcases keeps with rfl | ⟨-, hsize, rfl⟩
      · exact h.staged_le
      · exact TreeMap.size_insert_le.trans hsize
    · rcases keeps with rfl | ⟨-, -, rfl⟩
      · exact .inl hk
      · simp only [TreeMap.getElem?_insert, Std.compare_eq_iff_eq] at hk
        split at hk
        · subst k
          cases hk
          exact .inr ⟨rfl, hmem⟩
        · exact .inl hk
  | request known free holds reaches unasked room => exact h.request known free holds reaches unasked room
  | release staged =>
    refine h.transfer rfl (List.Subset.refl _) (fun id p hp => ⟨?_, fun w hw => ⟨p, hp, hw⟩⟩) h.accepted ?_
      fun k id sync hk => .inl (getElem?_of_erase hk)
    · exact (h.peers id p hp).mono (List.Subset.refl _) (List.Subset.refl _) le_rfl rfl
    · exact TreeMap.size_erase_le.trans h.staged_le

theorem Sound.connect {addr : PeerAddr} {outbound : Bool}
    (h : Sound (m, log)) (hadmission : m.Admission addr outbound r) : Sound (r.1, log) := by
  have hfresh : PeerSound log addr.id (m.admitted addr outbound) :=
    ⟨(fun _ ht => nomatch ht), (fun _ hw => nomatch hw), (fun _ hw => nomatch hw), h.accepted addr.id⟩
  have henter : ∀ {m' : Manager} {peers : TreeMap PeerId Connected},
      (∀ (x : PeerId) (p : Connected), peers[x]? = some p → m.peers[x]? = some p) →
      m'.peers = peers.insert addr.id (m.admitted addr outbound) → m'.staged = m.staged → Sound (m', log) := by
    intro m' peers hsub hpeers hstaged
    refine h.transfer rfl (List.Subset.refl _) (fun x p hp => ?_) h.accepted (hstaged ▸ h.staged_le)
      fun k id sync hk => .inl (hstaged ▸ hk)
    have hx : m'.peers[x]? = some p := hp
    simp only [hpeers, TreeMap.getElem?_insert, Std.compare_eq_iff_eq] at hx
    split at hx
    · rename_i heq
      rw [← heq, ← Option.some.inj hx]
      exact ⟨hfresh, fun _ hw => nomatch hw⟩
    · exact ⟨h.peers x p (hsub x p hx), fun w hw => ⟨p, hsub x p hx, hw⟩⟩
  cases hadmission with
  | outbound _ _ _ hpeers hstaged => exact henter (fun _ _ hp => hp) hpeers hstaged
  | inbound => exact henter (fun _ _ hp => hp) rfl rfl
  | evicting => exact henter (fun _ _ hp => getElem?_of_erase hp) rfl rfl

/-! ## The order blocks are handed over in -/

/-- The blocks handed over name the heights from the one last set. Past the last height there is no other. -/
structure Ordered (s : Logged) : Prop where
  applied : s.2.applied.map (·.val) = List.range' s.2.set.val s.2.applied.length
  height : s.1.height.val = s.2.set.val + s.2.applied.length ∨
    s.1.height.val + 1 = 2 ^ 64 ∧ s.2.set.val + s.2.applied.length = 2 ^ 64 ∧ s.1.staged[s.1.height]? = none

/-- A block is not one for the last height while the manager is at it. -/
def BelowLast (height : Height) (sync : SyncBlock) : Prop := ¬(height.val + 1 = 2 ^ 64 ∧ sync.height = height)

theorem Ordered.act (h : Ordered s) (hsound : Sound s) (hact : Act BelowLast s s') : Ordered s' := by
  cases hact with
  | other peers staged height limits =>
    refine ⟨h.applied, ?_⟩
    rw [staged, height]
    exact h.height
  | setHeight => exact ⟨rfl, .inl rfl⟩
  | forget | refill | age | revise | claim | deny | request => exact ⟨h.applied, h.height⟩
  | @accept m log id p sync staged known asked fit keeps =>
    rcases keeps with rfl | ⟨hle, -, rfl⟩
    · exact ⟨h.applied, h.height⟩
    · refine ⟨h.applied, ?_⟩
      rcases h.height with hheight | ⟨hlast, hset, hnone⟩
      · exact .inl hheight
      · -- the block would be for the last height
        have hle : m.height.val ≤ sync.height.val := hle
        have hlast' : m.height.val + 1 = 2 ^ 64 := hlast
        have hsync : sync.height = m.height := Fin.ext (by have := sync.height.isLt; omega)
        exact absurd ⟨hlast, hsync⟩ fit
  | @release m log source sync staged =>
    obtain ⟨hsync, -⟩ := hsound.staged _ _ _ staged
    rcases h.height with hheight | ⟨-, -, hnone⟩
    · have hheight : m.height.val = log.set.val + log.applied.length := hheight
      refine ⟨?_, ?_⟩
      · have happlied : log.applied.map (·.val) = List.range' log.set.val log.applied.length := h.applied
        simp only [List.map_append, List.map_singleton, List.length_append, List.length_singleton, happlied, hsync]
        rw [List.range'_concat, hheight, Nat.one_mul]
      · have hlt := m.height.isLt
        have hnext : m.height.next.val = min (m.height.val + 1) (2 ^ 64 - 1) := Fin.saturatingAdd_val m.height 1
        simp only [List.length_append, List.length_singleton]
        by_cases hlast : m.height.val + 1 = 2 ^ 64
        · have hsame : m.height.next = m.height := Fin.ext (by omega)
          refine .inr ⟨by omega, by omega, ?_⟩
          rw [hsame]
          simp
        · exact .inl (by omega)
    · cases hnone.symm.trans staged

theorem Ordered.connect {addr : PeerAddr} {outbound : Bool}
    (h : Ordered (m, log)) (hadmission : m.Admission addr outbound r) : Ordered (r.1, log) := by
  cases hadmission with
  | outbound _ _ _ _ staged height _ =>
    refine ⟨h.applied, ?_⟩
    rw [staged, height]
    exact h.height
  | inbound | evicting => exact ⟨h.applied, h.height⟩

end

/-! ## Runs -/

section

variable [Crypto] {s : Logged}

theorem after_append (s : Logged) (ops : List ManagerOp) (op : ManagerOp) :
    s.after (ops ++ [op]) = (s.after ops).apply op := by
  rw [after, List.foldl_append, ← after]
  rfl

theorem Sound.apply (h : Sound s) (op : ManagerOp) : Sound (s.apply op) :=
  have hact : ∀ s t, Sound s → Act (fun _ _ => True) s t → Sound t := fun _ _ => Sound.act
  keeps_apply hact (fun _ _ _ _ _ => Sound.connect) s op (fun _ _ _ _ => trivial) h

theorem Ordered.apply (h : Ordered s) (hsound : Sound s) (op : ManagerOp)
    (fit : ∀ source sync bytes, op = .message source (.block sync) bytes → BelowLast s.1.height sync) :
    Ordered (s.apply op) := by
  have hboth : Sound (s.apply op) ∧ Ordered (s.apply op) :=
    keeps_apply (P := fun s => Sound s ∧ Ordered s) (fun s t hs hact => ⟨hs.1.act hact, hs.2.act hs.1 hact⟩)
      (fun m log addr outbound r hs hadmission => ⟨hs.1.connect hadmission, hs.2.connect hadmission⟩) s op fit
      ⟨hsound, h⟩
  exact hboth.2

omit [Crypto] in
theorem sound_new (ours : PeerId) (book : AddrBook) (limits : Limits) :
    Sound (Manager.new ours book limits, SyncLog.empty) where
  peers id p hp := by simp [Manager.new] at hp
  accepted id := le_rfl
  asked id w hw := nomatch hw
  apart id id' p p' w hp := by simp [Manager.new] at hp
  busy S hS := by
    rcases S.eq_empty_or_nonempty with rfl | ⟨id, hid⟩
    · exact Nat.zero_le _
    · obtain ⟨p, w, hp, -⟩ := hS id hid
      simp [Manager.new] at hp
  staged_le := Nat.zero_le _
  staged k id sync hk := by simp [Manager.new] at hk

theorem sound_after (h : Sound s) (ops : List ManagerOp) : Sound (s.after ops) := by
  induction ops using List.reverseRecOn with
  | nil => exact h
  | append_singleton ops op ih =>
    rw [after_append]
    exact ih.apply op

theorem ordered_after (h : Ordered s) (hsound : Sound s) (ops : List ManagerOp)
    (fit : ∀ n source sync bytes, ops[n]? = some (.message source (.block sync) bytes) →
      BelowLast (s.after (ops.take n)).1.height sync) : Ordered (s.after ops) := by
  induction ops using List.reverseRecOn with
  | nil => exact h
  | append_singleton ops op ih =>
    rw [after_append]
    refine (ih fun n source sync bytes hn => ?_).apply (sound_after hsound ops) op fun source sync bytes hop => ?_
    · have hlt : n < ops.length := (List.getElem?_eq_some_iff.1 hn).1
      have hfit := fit n source sync bytes (by rw [List.getElem?_append_left hlt, hn])
      rwa [List.take_append_of_le_length hlt.le] at hfit
    · have hfit := fit ops.length source sync bytes (by rw [hop, List.getElem?_concat_length])
      rwa [List.take_left] at hfit

end

end AfroLink.Logged

namespace AfroLink

/-- A run of a new manager, with its log. -/
def Logged.run [Crypto] (ours : PeerId) (book : AddrBook) (limits : Limits) (ops : List ManagerOp) : Logged :=
  after (Manager.new ours book limits, SyncLog.empty) ops

/-- Requests outstanding, as they are counted before another is sent. -/
def Manager.inFlight (m : Manager) : ℕ := (m.peers.values.filterMap (·.awaitingBlock)).length

/-- In every run: few requests are outstanding, for different heights, sent to peers that claimed to hold them; few
blocks are staged, each asked of the peer that sent it, which answered no more often than it was asked. The heights
handed over since one was set go on from it, as long as no block for the last height arrives at that height. -/
theorem sync_holds_what_it_asked [Crypto] (ours : PeerId) (book : AddrBook) (limits : Limits) (ops : List ManagerOp) :
    (Logged.run ours book limits ops).1.inFlight ≤ MAX_BLOCKS_IN_FLIGHT ∧
      (∀ (id id' : PeerId) (p p' : Connected) (w : Height),
        (Logged.run ours book limits ops).1.peers[id]? = some p →
        (Logged.run ours book limits ops).1.peers[id']? = some p' →
        p.awaitingBlock = some w → p'.awaitingBlock = some w → id = id') ∧
      (∀ (id : PeerId) (p : Connected) (w : Height),
        (Logged.run ours book limits ops).1.peers[id]? = some p →
        p.awaitingBlock = some w → (id, w) ∈ (Logged.run ours book limits ops).2.asked) ∧
      (∀ id w, (id, w) ∈ (Logged.run ours book limits ops).2.asked →
        ∃ h, w ≤ h ∧ (id, h) ∈ (Logged.run ours book limits ops).2.claims) ∧
      (Logged.run ours book limits ops).1.staged.size ≤ MAX_STAGED_BLOCKS ∧
      (∀ (h : Height) (id : PeerId) (sync : SyncBlock),
        (Logged.run ours book limits ops).1.staged[h]? = some (id, sync) →
        sync.height = h ∧ (id, h) ∈ (Logged.run ours book limits ops).2.asked) ∧
      (∀ id, (Logged.run ours book limits ops).2.accepted.count id ≤
        (Logged.run ours book limits ops).2.asked.countP (·.1 = id)) ∧
      ((∀ n source sync bytes, ops[n]? = some (.message source (.block sync) bytes) →
          Logged.BelowLast (Logged.run ours book limits (ops.take n)).1.height sync) →
        (Logged.run ours book limits ops).2.applied.map (·.val) =
          List.range' (Logged.run ours book limits ops).2.set.val
            (Logged.run ours book limits ops).2.applied.length) := by
  have hnew := Logged.sound_new ours book limits
  have h := Logged.sound_after hnew ops
  refine ⟨Logged.busy_iff.1 h.busy, h.apart, fun id p w hp hw => (h.peers id p hp).awaits w hw, h.asked, h.staged_le, h.staged,
    h.accepted, fun fit => ?_⟩
  exact (Logged.ordered_after ⟨rfl, .inl rfl⟩ hnew ops fit).applied

namespace Tagged

def lastHeight : Height := Fin.last _

def blockAt (height : Height) : SyncBlock :=
  ⟨⟨⟨Sample.chain, height, 0, 0, 0, 0, 0, 0, 0⟩, []⟩, ⟨height, 0, 0, []⟩⟩

def answers (n : ℕ) (height : Height) : ManagerOp := .message (host n).id (.block (blockAt height)) 0

/-- Eight peers that claim this height, and a node that needs the tenth. -/
def gathered (tip : Height) : List ManagerOp :=
  (List.range 8).flatMap (fun n => [.connect (host n) false, .message (host n).id (.status tip) 0]) ++ [.setHeight 10]

def manager : Manager := .new (host 9).id (.new (Sample.key 0)) {}

/-- All eight are asked; the height is then set to the last one, for which the second peer answers twice. -/
def atTheEnd : List ManagerOp :=
  gathered 17 ++ [.tick 0, .setHeight lastHeight, answers 1 10, .message (host 1).id (.status lastHeight) 0,
    .tick 0, answers 1 lastHeight, .tick 0, answers 1 lastHeight]

/-- The last height is handed over twice. -/
theorem last_height_applied_twice :
    (Logged.run (host 9).id (.new (Sample.key 0)) {} atTheEnd).2.set = lastHeight ∧
      (Logged.run (host 9).id (.new (Sample.key 0)) {} atTheEnd).2.applied = [lastHeight, lastHeight] := by
  decide +kernel

end Tagged

/-! ## The block that is needed -/

namespace Manager

def stagedAt (m : Manager) (height : ℕ) : Option (PeerId × SyncBlock) :=
  if h : height < 2 ^ 64 then m.staged[(⟨height, h⟩ : Height)]? else none

/-- The blocks staged from a height on, up to the first that is not. -/
def Follow (m : Manager) (height : ℕ) (blocks : List (PeerId × SyncBlock)) : Prop :=
  ∀ i ≤ blocks.length, m.stagedAt (height + i) = blocks[i]?

def applyAll (blocks : List (PeerId × SyncBlock)) : List Directive := blocks.map fun b => .applyBlock b.1 b.2

theorem stagedAt_height (m : Manager) : m.stagedAt m.height.val = m.staged[m.height]? := dif_pos m.height.isLt

theorem stagedAt_of_ne {m m' : Manager} {k : Height} (h : ∀ x : Height, x ≠ k → m'.staged[x]? = m.staged[x]?)
    {n : ℕ} (hn : n ≠ k.val) : m'.stagedAt n = m.stagedAt n := by
  rw [stagedAt, stagedAt]
  split
  · exact h _ fun heq => hn (congrArg Fin.val heq)
  · rfl

theorem drainFrom_follow (fuel : ℕ) (m : Manager) (hfuel : m.staged.size ≤ fuel) :
    ∃ blocks, (m.drainFrom fuel).2 = applyAll blocks ∧ m.Follow m.height.val blocks := by
  induction fuel generalizing m with
  | zero =>
    have hnone : m.staged[m.height]? = none := by
      by_contra hsome
      obtain ⟨b, hb⟩ := Option.ne_none_iff_exists'.1 hsome
      have hpos := List.length_pos_of_mem (TreeMap.mem_toList_iff_getElem?_eq_some.2 hb)
      rw [TreeMap.length_toList] at hpos
      omega
    refine ⟨[], rfl, fun i hi => ?_⟩
    rw [Nat.le_zero.1 hi, Nat.add_zero, stagedAt_height, hnone]
    rfl
  | succ fuel ih =>
    cases hstaged : m.staged[m.height]? with
    | none =>
      refine ⟨[], by simp [drainFrom, hstaged, applyAll], fun i hi => ?_⟩
      rw [Nat.le_zero.1 hi, Nat.add_zero, stagedAt_height, hstaged]
      rfl
    | some b =>
      let m' : Manager := { m with height := m.height.next, staged := m.staged.erase m.height }
      have hsize : m'.staged.size ≤ fuel := by
        have hmem : m.height ∈ m.staged := TreeMap.mem_iff_isSome_getElem?.2 (by rw [hstaged]; rfl)
        have herase : (m.staged.erase m.height).size = m.staged.size - 1 := by
          rw [TreeMap.size_erase, if_pos (TreeMap.mem_iff_contains.1 hmem)]
        show (m.staged.erase m.height).size ≤ fuel
        omega
      obtain ⟨blocks, hout, hfollow⟩ := ih m' hsize
      have herased : m'.staged[m.height]? = none := by simp [m']
      have hother : ∀ x : Height, x ≠ m.height → m'.staged[x]? = m.staged[x]? := by
        intro x hx
        simp [m', TreeMap.getElem?_erase, Ne.symm hx]
      have hnext : m'.height.val = min (m.height.val + 1) (2 ^ 64 - 1) := Fin.saturatingAdd_val m.height 1
      refine ⟨b :: blocks, ?_, fun i hi => ?_⟩
      · simp only [drainFrom, hstaged, applyAll, List.map_cons]
        rw [hout]
        rfl
      · cases i with
        | zero =>
          rw [Nat.add_zero, stagedAt_height, hstaged]
          rfl
        | succ i =>
          rw [List.getElem?_cons_succ]
          by_cases hlast : m.height.val + 1 < 2 ^ 64
          · have hi := hfollow i (by simpa using hi)
            rw [← hi, hnext, Nat.min_eq_left (by omega), stagedAt_of_ne hother (by omega)]
            congr 1
            omega
          · -- after the last height there is none
            have hsame : m'.height = m.height := Fin.ext (by have := m.height.isLt; omega)
            have hempty := hfollow 0 (Nat.zero_le _)
            rw [Nat.add_zero, stagedAt_height, hsame, herased, eq_comm, List.getElem?_eq_none_iff] at hempty
            rw [stagedAt, dif_neg (by omega), List.getElem?_eq_none (by omega)]

theorem onMessageSized_block [Crypto] {m : Manager} {source : PeerId} {peer : Connected} {sync : SyncBlock} {bytes : U64}
    (hheard : m.heard source bytes = some peer) :
    m.onMessageSized source (.block sync) bytes = (m.update source peer).onBlock source sync := by
  rw [heard] at hheard
  cases hpeer : m.peers[source]? with
  | none => simp [hpeer] at hheard
  | some p =>
    rw [hpeer] at hheard
    rcases htake : p.messages.take 1 with ⟨messages, _ | _⟩
    · simp [htake] at hheard
    rcases hbytes : p.bytes.take bytes with ⟨left, _ | _⟩
    · simp [htake, hbytes] at hheard
    simp only [htake, hbytes, Option.some.injEq] at hheard
    subst peer
    simp only [onMessageSized, hpeer, htake, hbytes, PeerMessage.gossipId, onFresh]

theorem released_iff [Crypto] {m : Manager} {source : PeerId} {peer : Connected} {sync : SyncBlock} {bytes : U64}
    (hheard : m.heard source bytes = some peer) (hawaits : peer.awaitingBlock = some m.height)
    (hsync : sync.height = m.height) :
    (∃ blocks, (m.onMessageSized source (.block sync) bytes).2 = applyAll ((source, sync) :: blocks) ∧
      m.Follow (m.height.val + 1) blocks) ↔ m.staged.size < MAX_STAGED_BLOCKS := by
  have hknown : (m.update source peer).peers[source]? = some peer := by
    rw [Logged.getElem?_update, if_pos rfl]
  rw [onMessageSized_block hheard, onBlock_of_asked hknown (.inl (by rw [hawaits, hsync]))]
  have hheight : ¬sync.height < (m.update source peer).height := by
    rw [hsync]
    exact lt_irrefl _
  rw [if_neg hheight]
  by_cases hsize : MAX_STAGED_BLOCKS ≤ m.staged.size
  · have hfull : MAX_STAGED_BLOCKS ≤ (m.update source peer).staged.size := hsize
    rw [if_pos hfull]
    refine iff_of_false ?_ (not_lt.2 hsize)
    rintro ⟨blocks, hout, -⟩
    cases hout
  · have hroom : ¬MAX_STAGED_BLOCKS ≤ (m.update source peer).staged.size := hsize
    rw [if_neg hroom]
    refine iff_of_true ?_ (not_le.1 hsize)
    let m' : Manager := { (m.update source peer).update source (answered peer sync.height) with
      staged := m.staged.insert sync.height (source, sync) }
    obtain ⟨blocks, hout, hfollow⟩ := drainFrom_follow m'.staged.size m' le_rfl
    have hstaged : m'.stagedAt m.height.val = some (source, sync) := by
      have : m'.staged[m.height]? = some (source, sync) := by simp [m', hsync]
      exact (stagedAt_height m').trans this
    have hfirst := hfollow 0 (Nat.zero_le _)
    have hm' : m'.height.val = m.height.val := rfl
    rw [Nat.add_zero, hm', hstaged] at hfirst
    cases blocks with
    | nil => cases hfirst
    | cons b blocks =>
      cases hfirst
      refine ⟨blocks, hout, fun i hi => ?_⟩
      have hi := hfollow (i + 1) (by simpa using hi)
      rw [List.getElem?_cons_succ] at hi
      rw [← hi, hm', Nat.add_right_comm, Nat.add_assoc]
      refine (stagedAt_of_ne (k := m.height) (fun x hx => ?_) (by omega)).symm
      have hne : sync.height ≠ x := by
        rw [hsync]
        exact Ne.symm hx
      simp [m', TreeMap.getElem?_insert, hne]

end Manager

/-- In every run: a block for the height the node is at, from the peer that was asked for it, is handed over with the
staged blocks that follow it, exactly where the stage is not full. -/
theorem needed_block_released_iff [Crypto] (ours : PeerId) (book : AddrBook) (limits : Limits) (ops : List ManagerOp)
    (source : PeerId) (peer : Connected) (sync : SyncBlock) (bytes : U64)
    (hheard : (Manager.run ours book limits ops).heard source bytes = some peer)
    (hawaits : peer.awaitingBlock = some (Manager.run ours book limits ops).height)
    (hsync : sync.height = (Manager.run ours book limits ops).height) :
    (∃ blocks, ((Manager.run ours book limits ops).onMessageSized source (.block sync) bytes).2 =
        Manager.applyAll ((source, sync) :: blocks) ∧
      (Manager.run ours book limits ops).Follow ((Manager.run ours book limits ops).height.val + 1)
        blocks) ↔
      (Manager.run ours book limits ops).staged.size < MAX_STAGED_BLOCKS :=
  Manager.released_iff hheard hawaits hsync

namespace Tagged

/-- The second peer keeps the node waiting for the tenth block while the others send the sixteen after it. -/
def stalling : List ManagerOp :=
  gathered 40 ++
    [.tick 0, answers 2 11, answers 3 12, answers 4 13, answers 5 14, answers 6 15, answers 7 16, answers 0 17,
      .tick 0, answers 2 18, answers 3 19, answers 4 20, answers 5 21, answers 6 22, answers 7 23, answers 0 24,
      .tick 0, answers 3 25, answers 4 26]

/-- The tenth block is thrown away when it comes. -/
theorem needed_block_dropped :
    (((manager.after stalling).heard (host 1).id 0).bind (·.awaitingBlock)) = some 10 ∧
      (manager.after stalling).height = 10 ∧
      ((manager.after stalling).onMessageSized (host 1).id (.block (blockAt 10)) 0).2 = [] := by
  decide +kernel

/-- Before that, it would have been handed over. -/
theorem needed_block_released_iff_stalling :
    ∃ blocks, ((manager.after (stalling.take 20)).onMessageSized (host 1).id (.block (blockAt 10)) 0).2 =
      Manager.applyAll (((host 1).id, blockAt 10) :: blocks) := by
  have hpeer : ((manager.after (stalling.take 20)).heard (host 1).id 0).bind (·.awaitingBlock) =
      some (manager.after (stalling.take 20)).height := by decide +kernel
  obtain ⟨peer, hheard, hawaits⟩ := Option.bind_eq_some_iff.1 hpeer
  obtain ⟨blocks, hout, -⟩ := (needed_block_released_iff (host 9).id (.new (Sample.key 0)) {} (stalling.take 20)
    (host 1).id peer (blockAt 10) 0 hheard hawaits (by decide +kernel)).2 (by decide +kernel)
  exact ⟨blocks, hout⟩

end Tagged

end AfroLink
