import AfroLink.Base.TreeMap
import AfroLink.P2p.Manager

/-!
# What a call of the peer manager does

Every call is a run of a few small acts on the peer table, the staged blocks and the height. Beside the manager goes a
log of what was claimed by peers, asked of them and handed over.
-/

open Std (TreeMap)

namespace AfroLink

inductive ManagerOp where
  | setHeight (height : Height)
  /-- Any change through `book_mut`. -/
  | editBook (book : AddrBook)
  | seedAnchors (addrs : List PeerAddr)
  | wantsOutbound
  | connect (addr : PeerAddr) (outbound : Bool)
  | advertised (peer : PeerId) (claimed : SocketAddr) (source : AddrGroup)
  | disconnect (peer : PeerId)
  | dialFailed (peer : PeerId)
  | tick (elapsed : Duration)
  | message (source : PeerId) (message : PeerMessage) (bytes : U64)
  | penalise (source : PeerId) (what : Misbehaviour)

namespace Manager

/-- The peer a message comes from, its cost taken, if it is connected and within its limits. -/
def heard (m : Manager) (source : PeerId) (bytes : U64) : Option Connected :=
  match m.peers[source]? with
  | none => none
  | some peer =>
    match peer.messages.take 1, peer.bytes.take bytes with
    | (messages, true), (bytes, true) => some { peer with messages, bytes }
    | _, _ => none

def answered (p : Connected) (height : Height) : Connected :=
  { p with
    abandoned := if p.awaitingBlock ≠ some height then none else p.abandoned
    awaitingBlock := none, requestAge := 0, served := true
    tip := some (match p.tip with
      | none => height
      | some tip => max tip height) }

theorem onBlock_of_asked {m : Manager} {id : PeerId} {p : Connected} {sync : SyncBlock} (hp : m.peers[id]? = some p)
    (hasked : p.awaitingBlock = some sync.height ∨ p.abandoned = some sync.height) :
    m.onBlock id sync =
      if sync.height < m.height then (m.update id (answered p sync.height), [])
      else if MAX_STAGED_BLOCKS ≤ m.staged.size then (m.update id (answered p sync.height), [])
      else
        { m.update id (answered p sync.height) with
          staged := m.staged.insert sync.height (id, sync) }.drainStaged := by
  have hknown : ¬(p.awaitingBlock ≠ some sync.height ∧ p.abandoned ≠ some sync.height) := by tauto
  simp only [onBlock, hp, if_neg hknown]
  rfl

section

variable [Crypto]

def apply (m : Manager) : ManagerOp → Manager × List Directive
  | .setHeight height => (m.setHeight height, [])
  | .editBook book => ({ m with book }, [])
  | .seedAnchors addrs => (m.seedAnchors addrs, [])
  | .wantsOutbound => (m.wantsOutbound.1, [])
  | .connect addr outbound =>
    match m.admitPeer addr outbound with
    | .ok r => r
    | .error _ => (m, [])
  | .advertised peer claimed source => (m.advertised peer claimed source, [])
  | .disconnect peer => (m.onDisconnect peer, [])
  | .dialFailed peer => (m.onDialFailed peer, [])
  | .tick elapsed => m.onTick elapsed
  | .message source message bytes => m.onMessageSized source message bytes
  | .penalise source what => m.penalise source what

def after (m : Manager) (ops : List ManagerOp) : Manager := ops.foldl (fun m op => (m.apply op).1) m

end

end Manager

structure SyncLog where
  /-- The height last set. -/
  set : Height
  /-- The heights handed over since. -/
  applied : List Height
  /-- Whom a block was asked of. -/
  asked : List (PeerId × Height)
  /-- The heights peers said they hold. -/
  claims : List (PeerId × Height)
  /-- Who answered a request with a block. -/
  accepted : List PeerId

namespace SyncLog

def empty : SyncLog := ⟨0, [], [], [], []⟩

/-- What a message says. A block is accepted if it answers a request to this peer, late or not. -/
def take (log : SyncLog) (source : PeerId) (peer : Connected) : PeerMessage → SyncLog
  | .status height => { log with claims := log.claims ++ [(source, height)] }
  | .block sync =>
    if peer.awaitingBlock = some sync.height ∨ peer.abandoned = some sync.height then
      { log with accepted := log.accepted ++ [source] }
    else log
  | _ => log

def hear (log : SyncLog) (m : Manager) : ManagerOp → SyncLog
  | .setHeight height => { log with set := height, applied := [] }
  | .message source message bytes =>
    match m.heard source bytes with
    | some peer => log.take source peer message
    | none => log
  | _ => log

def tell (log : SyncLog) : Directive → SyncLog
  | .send peer (.getBlock height) => { log with asked := log.asked ++ [(peer, height)] }
  | .applyBlock _ sync => { log with applied := log.applied ++ [sync.height] }
  | _ => log

end SyncLog

abbrev Logged := Manager × SyncLog

namespace Logged

def apply [Crypto] (s : Logged) (op : ManagerOp) : Logged :=
  ((s.1.apply op).1, (s.1.apply op).2.foldl SyncLog.tell (s.2.hear s.1 op))

def after [Crypto] (s : Logged) (ops : List ManagerOp) : Logged := ops.foldl apply s

/-- A peer as it was but for its budgets, its score, the age of its request and what it was asked beside blocks. -/
structure Same (p p' : Connected) : Prop where
  addr : p'.addr = p.addr
  outbound : p'.outbound = p.outbound
  tip : p'.tip = p.tip
  awaitingBlock : p'.awaitingBlock = p.awaitingBlock
  abandoned : p'.abandoned = p.abandoned

def Busy (peers : TreeMap PeerId Connected) (n : ℕ) : Prop :=
  ∀ S : Finset PeerId,
    (∀ id ∈ S, ∃ (p : Connected) (w : Height), peers[id]? = some p ∧ p.awaitingBlock = some w) → S.card ≤ n

/-- The parts of every call but an admission. The blocks that are accepted are those that `fits` allows at the height the
manager is at. -/
inductive Act (fits : Height → SyncBlock → Prop) : Logged → Logged → Prop
  | other {m m' : Manager} {log : SyncLog} (peers : m'.peers = m.peers) (staged : m'.staged = m.staged)
      (height : m'.height = m.height) (limits : m'.limits = m.limits) : Act fits (m, log) (m', log)
  | setHeight (m : Manager) (log : SyncLog) (height : Height) :
      Act fits (m, log) (m.setHeight height, { log with set := height, applied := [] })
  | forget (m : Manager) (log : SyncLog) (id : PeerId) : Act fits (m, log) ({ m with peers := m.peers.erase id }, log)
  | refill (m : Manager) (log : SyncLog) (elapsed : Duration) :
      Act fits (m, log) ({ m with peers := m.peers.map fun _ => Connected.refill elapsed }, log)
  | age (m : Manager) (log : SyncLog) : Act fits (m, log) ({ m with peers := m.peers.map fun _ => Connected.age }, log)
  | revise {m : Manager} {log : SyncLog} {id : PeerId} {p p' : Connected} (known : m.peers[id]? = some p)
      (same : Same p p') : Act fits (m, log) (m.update id p', log)
  | claim {m : Manager} {log : SyncLog} {id : PeerId} {p : Connected} (height : Height)
      (known : m.peers[id]? = some p) :
      Act fits (m, log)
        (m.update id { p with tip := some height }, { log with claims := log.claims ++ [(id, height)] })
  | deny {m : Manager} {log : SyncLog} {id : PeerId} {p : Connected} {height : Height}
      (known : m.peers[id]? = some p) (awaits : p.awaitingBlock = some height) :
      Act fits (m, log) (m.update id
        { p with awaitingBlock := none, requestAge := 0, tip := some (height.saturatingSub 1) }, log)
  | accept {m : Manager} {log : SyncLog} {id : PeerId} {p : Connected} {sync : SyncBlock}
      {staged : TreeMap Height (PeerId × SyncBlock)} (known : m.peers[id]? = some p)
      (asked : p.awaitingBlock = some sync.height ∨ p.abandoned = some sync.height)
      (fit : fits m.height sync) (keeps : staged = m.staged ∨
        m.height ≤ sync.height ∧ m.staged.size < MAX_STAGED_BLOCKS ∧ staged = m.staged.insert sync.height (id, sync)) :
      Act fits (m, log) ({ m.update id (Manager.answered p sync.height) with staged },
        { log with accepted := log.accepted ++ [id] })
  | request {m : Manager} {log : SyncLog} {id : PeerId} {p : Connected} {want tip : Height}
      (known : m.peers[id]? = some p) (free : p.awaitingBlock = none) (holds : p.tip = some tip) (reaches : want ≤ tip)
      (unasked : ∀ (id' : PeerId) (p' : Connected), m.peers[id']? = some p' → p'.awaitingBlock ≠ some want)
      (room : Busy m.peers (MAX_BLOCKS_IN_FLIGHT - 1)) :
      Act fits (m, log) (m.update id { p with awaitingBlock := some want, requestAge := 0 },
        { log with asked := log.asked ++ [(id, want)] })
  | release {m : Manager} {log : SyncLog} {source : PeerId} {sync : SyncBlock}
      (staged : m.staged[m.height]? = some (source, sync)) :
      Act fits (m, log) ({ m with height := m.height.next, staged := m.staged.erase m.height },
        { log with applied := log.applied ++ [sync.height] })

abbrev Acts (fits : Height → SyncBlock → Prop) := Relation.ReflTransGen (Act fits)

/-- The result of a call is reached; `log` has what the call said. -/
def Reaches (fits : Height → SyncBlock → Prop) (s : Logged) (log : SyncLog) (r : Manager × List Directive) : Prop :=
  Acts fits s (r.1, r.2.foldl SyncLog.tell log)

/-! ## The calls as runs of acts -/

section

variable {fits : Height → SyncBlock → Prop} {m : Manager} {log : SyncLog} {id : PeerId} {p : Connected}

theorem acts_penalise (m : Manager) (log : SyncLog) (source : PeerId) (what : Misbehaviour) :
    Reaches fits (m, log) log (m.penalise source what) := by
  rw [Manager.penalise]
  split
  · exact .refl
  · rename_i peer hpeer
    dsimp only
    split
    · exact .tail (.single (.forget m log source)) (.other rfl rfl rfl rfl)
    · exact .single (.revise hpeer ⟨rfl, rfl, rfl, rfl, rfl⟩)

theorem acts_drainFrom (fuel : ℕ) (m : Manager) (log : SyncLog) :
    Reaches fits (m, log) log (m.drainFrom fuel) := by
  induction fuel generalizing m log with
  | zero => exact .refl
  | succ fuel ih =>
    rw [Manager.drainFrom]
    split
    · exact .refl
    · rename_i source sync hstaged
      exact .head (.release hstaged) (ih _ _)

theorem getElem?_update (m : Manager) (id x : PeerId) (p : Connected) :
    (m.update id p).peers[x]? = if x = id then some p else m.peers[x]? := by
  simp only [Manager.update, TreeMap.getElem?_insert, Std.compare_eq_iff_eq, eq_comm (a := x)]

theorem Busy.mono {peers : TreeMap PeerId Connected} {n k : ℕ} (h : Busy peers n) (hle : n ≤ k) : Busy peers k :=
  fun S hS => (h S hS).trans hle

theorem Busy.update {n : ℕ} (h : Busy m.peers n) (id : PeerId) (p : Connected) : Busy (m.update id p).peers (n + 1) := by
  intro S hS
  have hrest : (S.erase id).card ≤ n := by
    refine h _ fun x hx => ?_
    obtain ⟨hne, hx⟩ := Finset.mem_erase.1 hx
    obtain ⟨p', w, hp', hw⟩ := hS x hx
    rw [getElem?_update, if_neg hne] at hp'
    exact ⟨p', w, hp', hw⟩
  have := Finset.pred_card_le_card_erase (s := S) (a := id)
  omega

theorem busy_iff {peers : TreeMap PeerId Connected} {n : ℕ} :
    Busy peers n ↔ (peers.values.filterMap (·.awaitingBlock)).length ≤ n := by
  let asked := peers.toList.filter fun e => e.2.awaitingBlock.isSome
  have hlength : (peers.values.filterMap (·.awaitingBlock)).length = asked.length := by
    rw [TreeMap.values_eq_map_snd, List.filterMap_map, List.length_filterMap_eq_countP, List.countP_eq_length_filter]
    rfl
  have hmem : ∀ id, id ∈ (asked.map Prod.fst).toFinset ↔
      ∃ (p : Connected) (w : Height), peers[id]? = some p ∧ p.awaitingBlock = some w := by
    intro id
    simp [asked, Option.isSome_iff_exists]
  have hnodup : (asked.map Prod.fst).Nodup :=
    (TreeMap.nodup_keys_toList peers).sublist ((List.filter_sublist (l := peers.toList)).map _)
  have hcard : (asked.map Prod.fst).toFinset.card = asked.length := by
    rw [List.toFinset_card_of_nodup hnodup, List.length_map]
  rw [hlength, ← hcard]
  constructor
  · intro h
    exact h _ fun id hid => (hmem id).1 hid
  · intro h S hS
    exact (Finset.card_le_card fun id hid => (hmem id).2 (hS id hid)).trans h

theorem of_freePeerHolding {ids : List PeerId} {height : Height} (h : m.freePeerHolding ids height = some id) :
    ∃ p tip, m.peers[id]? = some p ∧ p.awaitingBlock = none ∧ p.tip = some tip ∧ height ≤ tip := by
  obtain ⟨offset, -, h⟩ := List.exists_of_findSome?_eq_some h
  simp only [Option.bind_eq_bind, Option.bind_eq_some_iff] at h
  obtain ⟨candidate, -, p, hp, h⟩ := h
  split at h
  · rename_i hfree
    cases h
    obtain ⟨tip, htip, hle⟩ := (Option.any_eq_true _ _).1 hfree.2
    exact ⟨p, tip, hp, hfree.1, htip, of_decide_eq_true hle⟩
  · cases h

theorem acts_scheduleFrom (ids : List PeerId) (ceiling : Height) (fuel : ℕ) (m : Manager) (claimed : List Height)
    (inFlight : ℕ) (want : Height) (log : SyncLog)
    (hclaimed : ∀ (id : PeerId) (p : Connected) (w : Height),
      m.peers[id]? = some p → p.awaitingBlock = some w → w ∈ claimed)
    (hbusy : Busy m.peers inFlight) :
    Reaches fits (m, log) log (Manager.scheduleFrom ids ceiling fuel m claimed inFlight want) := by
  induction fuel generalizing m claimed inFlight want log with
  | zero => exact .refl
  | succ fuel ih =>
    rw [Manager.scheduleFrom]
    split
    · rename_i hroom
      split
      · exact ih m claimed inFlight _ log hclaimed hbusy
      · rename_i hfresh
        split
        · exact .refl
        · rename_i target htarget
          obtain ⟨p, tip, hp, hfree, htip, hle⟩ := of_freePeerHolding htarget
          have hrequest : m.request target want =
              m.update target { p with awaitingBlock := some want, requestAge := 0 } := by
            rw [Manager.request, hp]
            rfl
          have hact : Act fits (m, log) (m.request target want, { log with asked := log.asked ++ [(target, want)] }) := by
            rw [hrequest]
            exact .request hp hfree htip hle (fun id' p' hp' hw => hfresh (hclaimed id' p' want hp' hw))
              (hbusy.mono (Nat.le_sub_one_of_lt hroom.1))
          refine .head hact (ih _ _ _ _ _ (fun id' p' w hp' hw => ?_) (hrequest ▸ hbusy.update target _))
          rw [hrequest, getElem?_update] at hp'
          split at hp'
          · cases hp'
            cases hw
            exact List.mem_cons_self ..
          · exact List.mem_cons_of_mem _ (hclaimed id' p' w hp' hw)
    · exact .refl

theorem acts_scheduleSync (m : Manager) (log : SyncLog) (ids : List PeerId) :
    Reaches fits (m, log) log (m.scheduleSync ids) := by
  rw [Manager.scheduleSync]
  split
  · exact .refl
  · split
    · exact .refl
    · refine acts_scheduleFrom _ _ _ _ _ _ _ _ (fun id p w hp hw => ?_) (busy_iff.2 le_rfl)
      exact List.mem_append_left _ (List.mem_filterMap.2 ⟨p, TreeMap.mem_values.2 ⟨id, hp⟩, hw⟩)

theorem acts_askAddrs (m : Manager) (log : SyncLog) (target : PeerId) : Acts fits (m, log) (m.askAddrs target, log) := by
  rw [Manager.askAddrs]
  split
  · exact .refl
  · rename_i peer hpeer
    exact .single (.revise hpeer ⟨rfl, rfl, rfl, rfl, rfl⟩)

theorem acts_catchUp (m : Manager) (log : SyncLog) (ids : List PeerId) (before : List Directive)
    (hbefore : before.foldl SyncLog.tell log = log) :
    Reaches fits (m, log) log ((m.drainStaged.1.scheduleSync ids).1,
      before ++ m.drainStaged.2 ++ (m.drainStaged.1.scheduleSync ids).2) := by
  rw [Reaches, List.foldl_append, List.foldl_append, hbefore]
  exact (acts_drainFrom _ m log).trans (acts_scheduleSync _ _ ids)

theorem acts_onTick (m : Manager) (log : SyncLog) (elapsed : Duration) :
    Reaches fits (m, log) log (m.onTick elapsed) := by
  let m₁ : Manager := { m with
    uptime := m.uptime.saturatingAdd elapsed
    banned := m.banned.filter fun _ until_ => m.uptime.saturatingAdd elapsed < until_
    peers := m.peers.map fun _ => Connected.refill elapsed
    cursor := m.cursor + 1 }
  have hrefill : Acts fits (m, log) (m₁, log) := .tail (.single (.refill m log elapsed)) (.other rfl rfl rfl rfl)
  let m₂ : Manager := { m₁ with peers := m₁.peers.map fun _ => Connected.age }
  have hage : Acts fits (m, log) (m₂, log) := hrefill.tail (.age m₁ log)
  simp only [Manager.onTick]
  split
  · exact hrefill
  · split
    · exact hage.trans (acts_catchUp m₂ log _ [.broadcast (.status m₂.committedTip)] rfl)
    · rename_i target _
      exact hage.trans ((acts_askAddrs m₂ log target).trans (acts_catchUp (m₂.askAddrs target) log _
        [.broadcast (.status m₂.committedTip), .send target .getAddrs] rfl))

theorem acts_onBlock {sync : SyncBlock} (hp : m.peers[id]? = some p) (fit : fits m.height sync) :
    Reaches fits (m, log) (log.take id p (.block sync)) (m.onBlock id sync) := by
  by_cases hasked : p.awaitingBlock = some sync.height ∨ p.abandoned = some sync.height
  · rw [Manager.onBlock_of_asked hp hasked, SyncLog.take, if_pos hasked]
    split
    · exact .single (.accept hp hasked fit (.inl rfl))
    · rename_i hheight
      split
      · exact .single (.accept hp hasked fit (.inl rfl))
      · rename_i hsize
        exact .head (.accept hp hasked fit (.inr ⟨not_lt.1 hheight, not_le.1 hsize, rfl⟩)) (acts_drainFrom _ _ _)
  · have hunasked : p.awaitingBlock ≠ some sync.height ∧ p.abandoned ≠ some sync.height := by tauto
    simp only [Manager.onBlock, hp, SyncLog.take, if_neg hasked, if_pos hunasked]
    exact acts_penalise m log id _

end

section

variable [Crypto] {fits : Height → SyncBlock → Prop} {m : Manager} {log : SyncLog} {id : PeerId} {p : Connected}

theorem acts_onFresh (message : PeerMessage) (hp : m.peers[id]? = some p)
    (fit : ∀ sync, message = .block sync → fits m.height sync) :
    Reaches fits (m, log) (log.take id p message) (m.onFresh id p message) := by
  cases message with
  | proposal | vote | transaction | ping | pong | getBlock => exact .refl
  | getAddrs =>
    simp only [Manager.onFresh]
    split <;> exact .refl
  | addrs addrs =>
    simp only [Manager.onFresh, Manager.onAddrs, hp]
    split
    · exact acts_penalise m log id _
    · have hrevise : Act fits (m, log) (m.update id { p with awaitingAddrs := false }, log) :=
        .revise hp ⟨rfl, rfl, rfl, rfl, rfl⟩
      exact .tail (.single hrevise) (.other rfl rfl rfl rfl)
  | status height => exact .single (.claim height hp)
  | block sync => exact acts_onBlock hp (fit sync rfl)
  | noBlock height =>
    simp only [Manager.onFresh]
    split
    · exact .single (.deny hp ‹_›)
    · exact .refl

theorem take_of_gossip {message : PeerMessage} {hash : Hash32} (h : message.gossipId = some hash) :
    log.take id p message = log := by
  cases message <;> first | rfl | cases h

theorem acts_onMessageSized (m : Manager) (log : SyncLog) (source : PeerId) (message : PeerMessage) (bytes : U64)
    (fit : ∀ sync, message = .block sync → fits m.height sync) :
    Reaches fits (m, log) (log.hear m (.message source message bytes)) (m.onMessageSized source message bytes) := by
  cases hpeer : m.peers[source]? with
  | none =>
    simp only [Manager.onMessageSized, SyncLog.hear, Manager.heard, hpeer]
    exact .refl
  | some peer =>
    rcases htake : peer.messages.take 1 with ⟨messages, _ | _⟩
    · have hspend : Act fits (m, log) (m.update source { peer with messages }, log) :=
        .revise hpeer ⟨rfl, rfl, rfl, rfl, rfl⟩
      simp only [Manager.onMessageSized, SyncLog.hear, Manager.heard, hpeer, htake]
      exact .head hspend (acts_penalise _ log source _)
    rcases hbytes : peer.bytes.take bytes with ⟨left, _ | _⟩
    · have hspend : Act fits (m, log) (m.update source { peer with messages, bytes := left }, log) :=
        .revise hpeer ⟨rfl, rfl, rfl, rfl, rfl⟩
      simp only [Manager.onMessageSized, SyncLog.hear, Manager.heard, hpeer, htake, hbytes]
      exact .head hspend (acts_penalise _ log source _)
    let peer' : Connected := { peer with messages, bytes := left }
    have hspend : Act fits (m, log) (m.update source peer', log) := .revise hpeer ⟨rfl, rfl, rfl, rfl, rfl⟩
    have hknown : (m.update source peer').peers[source]? = some peer' := by rw [getElem?_update, if_pos rfl]
    simp only [Manager.onMessageSized, SyncLog.hear, Manager.heard, hpeer, htake, hbytes]
    refine .head hspend ?_
    split
    · exact acts_onFresh message hknown fit
    · rename_i hgossip
      split
      · rw [take_of_gossip hgossip]
        exact .refl
      · rename_i seen _
        have hseen : Act fits (m.update source peer', log) ({ m.update source peer' with seen }, log) :=
          .other rfl rfl rfl rfl
        exact .head hseen (acts_onFresh (m := { m.update source peer' with seen }) message hknown fit)

omit [Crypto] in
theorem wantsOutbound_keeps (m : Manager) :
    m.wantsOutbound.1.peers = m.peers ∧ m.wantsOutbound.1.staged = m.staged ∧
      m.wantsOutbound.1.height = m.height ∧ m.wantsOutbound.1.limits = m.limits := by
  rw [Manager.wantsOutbound]
  split
  · exact ⟨rfl, rfl, rfl, rfl⟩
  · dsimp only
    split
    · exact ⟨rfl, rfl, rfl, rfl⟩
    · split <;> exact ⟨rfl, rfl, rfl, rfl⟩

theorem acts_apply (s : Logged) (op : ManagerOp) (h : ∀ addr outbound, op ≠ .connect addr outbound)
    (fit : ∀ source sync bytes, op = .message source (.block sync) bytes → fits s.1.height sync) :
    Acts fits s (s.apply op) := by
  obtain ⟨m, log⟩ := s
  cases op with
  | setHeight height => exact .single (.setHeight m log height)
  | editBook | seedAnchors | dialFailed => exact .single (.other rfl rfl rfl rfl)
  | wantsOutbound =>
    obtain ⟨hpeers, hstaged, hheight, hlimits⟩ := wantsOutbound_keeps m
    exact .single (.other hpeers hstaged hheight hlimits)
  | connect addr outbound => exact absurd rfl (h addr outbound)
  | advertised peer claimed source =>
    simp only [Logged.apply, Manager.apply, Manager.advertised]
    split
    · exact .refl
    · exact .single (.other rfl rfl rfl rfl)
  | disconnect peer => exact .single (.forget m log peer)
  | tick elapsed => exact acts_onTick m log elapsed
  | message source message bytes =>
    refine acts_onMessageSized m log source message bytes fun sync hsync => fit source sync bytes ?_
    rw [hsync]
  | penalise source what => exact acts_penalise m log source what

end

end Logged

/-! ## Admissions -/

inductive Manager.Admission (m : Manager) (addr : PeerAddr) : Bool → Manager × List Directive → Prop
  | outbound {m' : Manager} (unknown : m.peers[addr.id]? = none) (room : m.outboundCount < m.limits.maxOutbound)
      (group : addr.group ∉ m.outboundGroups) (peers : m'.peers = m.peers.insert addr.id (m.admitted addr true))
      (staged : m'.staged = m.staged) (height : m'.height = m.height) (limits : m'.limits = m.limits) :
      Admission m addr true (m', [])
  | inbound (unknown : m.peers[addr.id]? = none) (room : m.inboundCount < m.limits.maxInbound) :
      Admission m addr false ({ m with peers := m.peers.insert addr.id (m.admitted addr false) }, [])
  | evicting {victim : PeerId} (unknown : m.peers[addr.id]? = none) (full : m.limits.maxInbound ≤ m.inboundCount)
      (candidate : m.evictionCandidate = some victim) :
      Admission m addr false
        ({ m with peers := (m.peers.erase victim).insert addr.id (m.admitted addr false) },
          [.disconnect victim "evicted to make room"])

theorem Manager.admission_of_ok [Crypto] {m : Manager} {addr : PeerAddr} {outbound : Bool}
    {r : Manager × List Directive} (h : m.admitPeer addr outbound = .ok r) : m.Admission addr outbound r := by
  rw [Manager.admitPeer] at h
  split at h
  · cases h
  split at h
  · cases h
  split at h
  · cases h
  rename_i hnew
  have unknown : m.peers[addr.id]? = none := TreeMap.getElem?_eq_none_of_contains_eq_false (Bool.eq_false_iff.2 hnew)
  split at h
  · rename_i hout
    subst hout
    split at h
    · cases h
    rename_i hroom
    split at h
    · cases h
    rename_i hgroup
    cases h
    exact .outbound unknown (not_le.1 hroom) hgroup rfl rfl rfl rfl
  · rename_i hout
    cases Bool.eq_false_iff.2 hout
    split at h
    · rename_i hfull
      split at h
      · cases h
      rename_i victim hvictim
      cases h
      exact .evicting unknown hfull hvictim
    · rename_i hroom
      cases h
      exact .inbound unknown (not_le.1 hroom)

/-- The manager after a run of calls from a new one. -/
def Manager.run [Crypto] (ours : PeerId) (book : AddrBook) (limits : Limits) (ops : List ManagerOp) : Manager :=
  (Manager.new ours book limits).after ops

namespace Logged

variable [Crypto] {fits : Height → SyncBlock → Prop} {P : Logged → Prop}

theorem keeps_apply (hact : ∀ s t, P s → Act fits s t → P t)
    (henter : ∀ m log addr outbound r, P (m, log) → m.Admission addr outbound r → P (r.1, log)) (s : Logged)
    (op : ManagerOp) (fit : ∀ source sync bytes, op = .message source (.block sync) bytes → fits s.1.height sync)
    (h : P s) : P (s.apply op) := by
  by_cases hop : ∃ addr outbound, op = .connect addr outbound
  · obtain ⟨addr, outbound, rfl⟩ := hop
    rw [apply, Manager.apply]
    cases hr : s.1.admitPeer addr outbound with
    | error e => exact h
    | ok r =>
      have hadmission := Manager.admission_of_ok hr
      have htold : r.2.foldl SyncLog.tell s.2 = s.2 := by cases hadmission <;> rfl
      have hkept := henter s.1 s.2 addr outbound r h hadmission
      rw [← htold] at hkept
      exact hkept
  · have hacts : Acts fits s (s.apply op) :=
      acts_apply s op (fun addr outbound heq => hop ⟨addr, outbound, heq⟩) fit
    generalize s.apply op = t at hacts ⊢
    induction hacts with
    | refl => exact h
    | tail _ hstep ih => exact hact _ _ ih hstep

end Logged

end AfroLink
