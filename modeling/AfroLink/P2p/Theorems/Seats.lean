import AfroLink.Base.Select
import AfroLink.P2p.Lemmas.Manager

/-!
# Who sits in the connection table

Every call but an admission keeps seats or gives them up.
-/

open Std (TreeMap)

namespace AfroLink.Manager

/-- The peers whose address and direction are as `q` says. -/
def holding (q : PeerAddr → Bool → Bool) (peers : TreeMap PeerId Connected) : ℕ :=
  peers.values.countP fun p => q p.addr p.outbound

section

variable {m m' : Manager} {peers : TreeMap PeerId Connected} {id : PeerId} {p : Connected} {addr : PeerAddr}

theorem holding_insert (q : PeerAddr → Bool → Bool) (h : peers[id]? = none) :
    holding q (peers.insert id p) = holding q peers + if q p.addr p.outbound then 1 else 0 := by
  rw [holding, holding, TreeMap.values_eq_map_snd, TreeMap.values_eq_map_snd,
    ((TreeMap.perm_toList_insert h).map _).countP_eq]
  exact List.countP_cons

theorem holding_erase (q : PeerAddr → Bool → Bool) (h : peers[id]? = some p) :
    holding q peers = holding q (peers.erase id) + if q p.addr p.outbound then 1 else 0 := by
  rw [holding, holding, TreeMap.values_eq_map_snd, TreeMap.values_eq_map_snd,
    ((TreeMap.perm_toList_erase h).map _).countP_eq]
  exact List.countP_cons

/-- The seats after are among those before. -/
structure Thins (m m' : Manager) : Prop where
  peers : ∀ (id : PeerId) (p' : Connected), m'.peers[id]? = some p' →
    ∃ p : Connected, m.peers[id]? = some p ∧ p.addr = p'.addr ∧ p.outbound = p'.outbound
  limits : m'.limits = m.limits

theorem Thins.of_eq (hpeers : m'.peers = m.peers) (hlimits : m'.limits = m.limits) : Thins m m' :=
  ⟨fun _ p' hp' => ⟨p', hpeers ▸ hp', rfl, rfl⟩, hlimits⟩

theorem Thins.update {p' : Connected} (hp : m.peers[id]? = some p) (haddr : p.addr = p'.addr)
    (hout : p.outbound = p'.outbound) : Thins m (m.update id p') := by
  refine ⟨fun x px hx => ?_, rfl⟩
  rw [Logged.getElem?_update] at hx
  split at hx
  · rename_i heq
    cases hx
    exact ⟨p, heq ▸ hp, haddr, hout⟩
  · exact ⟨px, hx, rfl, rfl⟩

theorem Thins.map {f : Connected → Connected} (haddr : ∀ p, (f p).addr = p.addr)
    (hout : ∀ p, (f p).outbound = p.outbound) : Thins m { m with peers := m.peers.map fun _ => f } := by
  refine ⟨fun id p' hp' => ?_, rfl⟩
  rw [TreeMap.getElem?_map, Option.map_eq_some_iff] at hp'
  obtain ⟨p, hp, rfl⟩ := hp'
  exact ⟨p, hp, (haddr p).symm, (hout p).symm⟩

theorem Thins.act {fits : Height → SyncBlock → Prop} {s t : Logged} (h : Logged.Act fits s t) : Thins s.1 t.1 := by
  cases h with
  | other peers _ _ limits => exact .of_eq peers limits
  | setHeight | release => exact .of_eq rfl rfl
  | forget m log id =>
    refine ⟨fun x p hx => ⟨p, ?_, rfl, rfl⟩, rfl⟩
    rw [TreeMap.getElem?_erase] at hx
    split at hx
    · cases hx
    · exact hx
  | refill => exact .map (fun _ => rfl) (fun _ => rfl)
  | age =>
    refine .map (fun p => ?_) (fun p => ?_) <;>
    · simp only [Connected.age]
      split_ifs <;> rfl
  | revise known same => exact .update known same.addr.symm same.outbound.symm
  | claim _ known => exact .update known rfl rfl
  | deny known | request known => exact .update known rfl rfl
  | @accept m log id p sync staged known =>
    have hthin : Thins m (m.update id (answered p sync.height)) := .update known rfl rfl
    exact ⟨hthin.peers, rfl⟩

theorem Thins.holding_le (h : Thins m m') (q : PeerAddr → Bool → Bool) :
    holding q m'.peers ≤ holding q m.peers := by
  let seat : PeerId × Connected → PeerId × PeerAddr × Bool := fun e => (e.1, e.2.addr, e.2.outbound)
  have hcount : ∀ peers, holding q peers = (peers.toList.map seat).countP fun e => q e.2.1 e.2.2 := by
    intro peers
    rw [holding, TreeMap.values_eq_map_snd, List.countP_map, List.countP_map]
    rfl
  have hnodup : (m'.peers.toList.map seat).Nodup := by
    refine List.Nodup.of_map Prod.fst ?_
    rw [List.map_map]
    exact TreeMap.nodup_keys_toList m'.peers
  have hsubset : m'.peers.toList.map seat ⊆ m.peers.toList.map seat := by
    intro e he
    obtain ⟨⟨id, p'⟩, hmem, rfl⟩ := List.mem_map.1 he
    obtain ⟨p, hp, haddr, hout⟩ := h.peers id p' (TreeMap.mem_toList_iff_getElem?_eq_some.1 hmem)
    refine List.mem_map.2 ⟨(id, p), TreeMap.mem_toList_iff_getElem?_eq_some.2 hp, ?_⟩
    rw [show seat (id, p) = (id, p.addr, p.outbound) from rfl, haddr, hout]
  rw [hcount, hcount]
  exact (List.subperm_of_subset hnodup hsubset).countP_le _

/-! ## The peer that makes room -/

theorem of_evictionCandidate {victim : PeerId} (h : m.evictionCandidate = some victim) :
    ∃ p : Connected, m.peers[victim]? = some p ∧ p.outbound = false ∧ 2 ≤ m.seats p.addr.group ∧
      ∀ g, m.seats g ≤ m.seats p.addr.group := by
  simp only [evictionCandidate, Option.bind_eq_bind, Option.bind_eq_some_iff] at h
  obtain ⟨largest, hlargest, h⟩ := h
  split at h
  · cases h
  rename_i htwo
  obtain ⟨⟨id, p⟩, hmem, h⟩ := Option.bind_eq_some_iff.1 h
  cases h
  have hvictim := List.mem_of_lastMaxBy hmem
  simp only [List.mem_filter, decide_eq_true_eq, Bool.not_eq_true', TreeMap.mem_toList_iff_getElem?_eq_some] at hvictim
  obtain ⟨⟨hp, hin⟩, hseats⟩ := hvictim
  refine ⟨p, hp, hin, hseats ▸ not_lt.1 htwo, fun g => ?_⟩
  rw [hseats]
  rcases Nat.eq_zero_or_pos (m.seats g) with hzero | hpos
  · rw [hzero]
    exact Nat.zero_le _
  · -- some peer sits in that group
    obtain ⟨q, hq, hgroup⟩ := List.countP_pos_iff.1 hpos
    obtain ⟨k, hk⟩ := TreeMap.mem_values.1 hq
    simp only [Bool.and_eq_true, Bool.not_eq_true', decide_eq_true_eq] at hgroup
    refine (List.max?_eq_some_iff.1 hlargest).2 _ (List.mem_map.2 ⟨(k, q), ?_, by rw [hgroup.2]⟩)
    simp [TreeMap.mem_toList_iff_getElem?_eq_some, hk, hgroup.1]

theorem holding_evicting {victim : PeerId} (q : PeerAddr → Bool → Bool) (hnew : m.peers[addr.id]? = none)
    (hp : m.peers[victim]? = some p) :
    holding q ((m.peers.erase victim).insert addr.id (m.admitted addr false)) +
        (if q p.addr p.outbound then 1 else 0) =
      holding q m.peers + if q addr false then 1 else 0 := by
  have hnew' : (m.peers.erase victim)[addr.id]? = none := by
    simp only [TreeMap.getElem?_erase, hnew, ite_self]
  rw [holding_insert q hnew', holding_erase q hp]
  exact Nat.add_right_comm _ _ _

theorem Admission.keeps {outbound : Bool} {r : Manager × List Directive} (h : m.Admission addr outbound r)
    (hp : m.peers[id]? = some p) (hsafe : p.outbound = true ∨ m.seats p.addr.group = 1) :
    r.1.peers[id]? = some p := by
  have hne : m.peers[addr.id]? = none → addr.id ≠ id := by
    rintro hnone rfl
    cases hnone.symm.trans hp
  cases h with
  | outbound unknown _ _ peers =>
    rw [peers, TreeMap.getElem?_insert, if_neg (by simpa using hne unknown)]
    exact hp
  | inbound unknown =>
    rw [TreeMap.getElem?_insert, if_neg (by simpa using hne unknown)]
    exact hp
  | @evicting victim unknown _ candidate =>
    obtain ⟨pv, hpv, hin, htwo, -⟩ := of_evictionCandidate candidate
    have hvictim : victim ≠ id := by
      rintro rfl
      cases hpv.symm.trans hp
      rcases hsafe with hout | hone
      · cases hin.symm.trans hout
      · omega
    rw [TreeMap.getElem?_insert, if_neg (by simpa using hne unknown), TreeMap.getElem?_erase,
      if_neg (by simpa using hvictim)]
    exact hp

end

/-! ## Runs -/

structure Seated (m : Manager) (limits : Limits) : Prop where
  apart : ∀ (id id' : PeerId) (p p' : Connected), m.peers[id]? = some p → m.peers[id']? = some p' →
    p.outbound = true → p'.outbound = true → p.addr.group = p'.addr.group → id = id'
  outbound : m.outboundCount ≤ limits.maxOutbound
  inbound : m.inboundCount ≤ limits.maxInbound
  limits : m.limits = limits

section

variable {m m' : Manager} {limits : Limits} {addr : PeerAddr}

theorem Seated.thin (h : Seated m limits) (hthin : Thins m m') : Seated m' limits where
  apart id id' p p' hp hp' hout hout' hgroup := by
    obtain ⟨q, hq, haddr, hqout⟩ := hthin.peers id p hp
    obtain ⟨q', hq', haddr', hqout'⟩ := hthin.peers id' p' hp'
    exact h.apart id id' q q' hq hq' (hqout.trans hout) (hqout'.trans hout') (by rw [haddr, haddr', hgroup])
  outbound := (hthin.holding_le fun _ outbound => outbound).trans h.outbound
  inbound := (hthin.holding_le fun _ outbound => !outbound).trans h.inbound
  limits := hthin.limits.trans h.limits

theorem Seated.admission {outbound : Bool} {r : Manager × List Directive} (h : Seated m limits)
    (hadmission : m.Admission addr outbound r) : Seated r.1 limits := by
  have hlimits := h.limits
  -- the outbound peers are those of before where the newcomer is not one
  have hinbound : ∀ peers : TreeMap PeerId Connected,
      (∀ (id : PeerId) (p : Connected), peers[id]? = some p → p.outbound = true → m.peers[id]? = some p) →
      ∀ (id id' : PeerId) (p p' : Connected), peers[id]? = some p → peers[id']? = some p' →
        p.outbound = true → p'.outbound = true → p.addr.group = p'.addr.group → id = id' :=
    fun peers hsub id id' p p' hp hp' hout hout' =>
      h.apart id id' p p' (hsub id p hp hout) (hsub id' p' hp' hout') hout hout'
  cases hadmission with
  | @outbound m' unknown room group peers _ _ limits =>
    have hcount : ∀ q, holding q m'.peers = holding q m.peers + if q addr true then 1 else 0 := by
      intro q
      rw [peers]
      exact holding_insert q unknown
    have hgroup : ∀ (id : PeerId) (p : Connected), m.peers[id]? = some p → p.outbound = true →
        p.addr.group ≠ addr.group := by
      intro id p hp hout heq
      refine group (List.mem_map.2 ⟨p, List.mem_filter.2 ⟨TreeMap.mem_values.2 ⟨id, hp⟩, hout⟩, heq⟩)
    refine ⟨fun id id' p p' hp hp' hout hout' heq => ?_, ?_, ?_, limits.trans hlimits⟩
    · rw [peers, TreeMap.getElem?_insert] at hp hp'
      simp only [Std.compare_eq_iff_eq] at hp hp'
      split at hp <;> split at hp'
      · exact ‹addr.id = id›.symm.trans ‹addr.id = id'›
      · cases hp
        exact absurd heq.symm (hgroup id' p' hp' hout')
      · cases hp'
        exact absurd heq (hgroup id p hp hout)
      · exact h.apart id id' p p' hp hp' hout hout' heq
    · refine (hcount fun _ outbound => outbound).le.trans ?_
      rw [← hlimits]
      exact room
    · exact (hcount fun _ outbound => !outbound).le.trans h.inbound
  | inbound unknown room =>
    refine ⟨hinbound _ fun id p hp hout => ?_, ?_, ?_, hlimits⟩
    · rw [TreeMap.getElem?_insert] at hp
      split at hp
      · cases hp
        cases hout
      · exact hp
    · exact (holding_insert (fun _ outbound => outbound) unknown).le.trans h.outbound
    · refine (holding_insert (fun _ outbound => !outbound) unknown).le.trans ?_
      rw [← hlimits]
      exact room
  | @evicting victim unknown full candidate =>
    obtain ⟨p, hp, hin, -⟩ := of_evictionCandidate candidate
    refine ⟨hinbound _ fun id p hp hout => ?_, ?_, ?_, hlimits⟩
    · rw [TreeMap.getElem?_insert] at hp
      split at hp
      · cases hp
        cases hout
      · rw [TreeMap.getElem?_erase] at hp
        split at hp
        · cases hp
        · exact hp
    · have hcount := holding_evicting (fun _ outbound => outbound) unknown hp
      simp only [hin, Bool.false_eq_true, if_false, Nat.add_zero] at hcount
      exact hcount.le.trans h.outbound
    · have hcount := holding_evicting (fun _ outbound => !outbound) unknown hp
      simp only [hin, Bool.not_false, if_true, Nat.add_right_cancel_iff] at hcount
      exact hcount.le.trans h.inbound

variable [Crypto]

theorem Seated.apply (h : Seated m limits) (op : ManagerOp) : Seated (m.apply op).1 limits := by
  have hact : ∀ s t : Logged, Seated s.1 limits → Logged.Act (fun _ _ => True) s t → Seated t.1 limits :=
    fun _ _ hs hact => hs.thin (.act hact)
  exact Logged.keeps_apply hact (fun _ _ _ _ _ hs => hs.admission) (m, SyncLog.empty) op (fun _ _ _ _ => trivial) h

theorem seated_after (ours : PeerId) (book : AddrBook) (limits : Limits) (ops : List ManagerOp) :
    Seated (run ours book limits ops) limits := by
  refine List.foldlRecOn (motive := fun m => Seated m limits) ops _ ?_ fun m h op _ => h.apply op
  exact ⟨fun id id' p p' hp => by simp [Manager.new] at hp, Nat.zero_le _, Nat.zero_le _, rfl⟩

/-- What arrivals from one group leave as it is: the table is full, the others have at most `n` seats each and the
group has at most `b`. -/
structure Crowded (m : Manager) (g : AddrGroup) (n b : ℕ) : Prop where
  full : m.limits.maxInbound ≤ m.inboundCount
  others : ∀ g' ≠ g, m.seats g' ≤ n
  held : m.seats g ≤ b

omit [Crypto] in
theorem Crowded.evict {n b : ℕ} {victim : PeerId} (h : Crowded m addr.group n b) (hb : n + 1 ≤ b)
    (unknown : m.peers[addr.id]? = none) (candidate : m.evictionCandidate = some victim) :
    Crowded { m with peers := (m.peers.erase victim).insert addr.id (m.admitted addr false) } addr.group n b := by
  obtain ⟨p, hp, hin, -, hlargest⟩ := of_evictionCandidate candidate
  have hseats : ∀ g, _ := fun g => holding_evicting (fun addr outbound => !outbound && addr.group = g) unknown hp
  have hcount := holding_evicting (fun _ outbound => !outbound) unknown hp
  simp only [hin, Bool.not_false, Bool.true_and, if_true, decide_eq_true_eq] at hseats hcount
  refine ⟨?_, fun g' hg' => ?_, ?_⟩
  · exact h.full.trans (Nat.add_right_cancel hcount).ge
  · have hg := hseats g'
    rw [if_neg (Ne.symm hg')] at hg
    exact (Nat.le_add_right _ _).trans (hg.le.trans (h.others g' hg'))
  · have hg := hseats addr.group
    rw [if_pos rfl] at hg
    by_cases hsame : p.addr.group = addr.group
    · rw [if_pos hsame] at hg
      exact (Nat.add_right_cancel hg).le.trans h.held
    · -- the victim's group had at least as many seats as this one
      rw [if_neg hsame] at hg
      have hle : m.seats addr.group ≤ n := (hlargest _).trans (h.others _ hsame)
      exact hg.le.trans ((Nat.add_le_add_right hle 1).trans hb)

theorem Crowded.arrive {n b : ℕ} (h : Crowded m addr.group n b) (hb : n + 1 ≤ b) :
    Crowded (m.apply (.connect addr false)).1 addr.group n b := by
  rw [Manager.apply]
  cases hr : m.admitPeer addr false with
  | error e => exact h
  | ok r =>
    cases admission_of_ok hr with
    | inbound _ room => exact absurd room (not_lt.2 h.full)
    | evicting unknown _ candidate => exact h.evict hb unknown candidate

theorem Crowded.after {g : AddrGroup} {n b : ℕ} (h : Crowded m g n b) (hb : n + 1 ≤ b) (arrivals : List PeerAddr)
    (hgroup : ∀ a ∈ arrivals, a.group = g) :
    Crowded (m.after (arrivals.map (.connect · false))) g n b := by
  induction arrivals generalizing m with
  | nil => exact h
  | cons a arrivals ih =>
    have ha := hgroup a (List.mem_cons_self ..)
    subst ha
    exact ih (h.arrive hb) fun a' ha' => hgroup a' (List.mem_cons_of_mem _ ha')

end

end AfroLink.Manager

namespace AfroLink

/-- In every run: outbound peers are in different groups, both directions keep to their limits, an admission removes
neither an outbound peer nor the only inbound peer of a group, and however many arrive from one group at a full node,
it gets at most one seat more than the largest other group has, unless it had more before. -/
theorem arrivals_cannot_capture [Crypto] (ours : PeerId) (book : AddrBook) (limits : Limits) (ops : List ManagerOp) :
    (∀ (id id' : PeerId) (p p' : Connected),
        (Manager.run ours book limits ops).peers[id]? = some p →
        (Manager.run ours book limits ops).peers[id']? = some p' →
        p.outbound = true → p'.outbound = true → p.addr.group = p'.addr.group → id = id') ∧
      (Manager.run ours book limits ops).outboundCount ≤ limits.maxOutbound ∧
      (Manager.run ours book limits ops).inboundCount ≤ limits.maxInbound ∧
      (∀ addr outbound r, (Manager.run ours book limits ops).admitPeer addr outbound = .ok r →
        ∀ (id : PeerId) (p : Connected), (Manager.run ours book limits ops).peers[id]? = some p →
          (p.outbound = true ∨ (Manager.run ours book limits ops).seats p.addr.group = 1) →
          r.1.peers[id]? = some p) ∧
      ((Manager.run ours book limits ops).inboundCount = limits.maxInbound →
        ∀ (g : AddrGroup) (n : ℕ), (∀ g' ≠ g, (Manager.run ours book limits ops).seats g' ≤ n) →
          ∀ arrivals : List PeerAddr, (∀ a ∈ arrivals, a.group = g) →
            ((Manager.run ours book limits ops).after (arrivals.map (.connect · false))).seats g ≤
              max ((Manager.run ours book limits ops).seats g) (n + 1)) := by
  have h := Manager.seated_after ours book limits ops
  refine ⟨h.apart, h.outbound, h.inbound, fun addr outbound r hr id p hp hsafe => ?_,
    fun hfull g n hothers arrivals hgroup => ?_⟩
  · exact (Manager.admission_of_ok hr).keeps hp hsafe
  · have hcrowded : Manager.Crowded (Manager.run ours book limits ops) g n
        (max ((Manager.run ours book limits ops).seats g) (n + 1)) :=
      ⟨by rw [h.limits, hfull], hothers, le_max_left _ _⟩
    exact (hcrowded.after (le_max_right _ _) arrivals hgroup).held

end AfroLink
