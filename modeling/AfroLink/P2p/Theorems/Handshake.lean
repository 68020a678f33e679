import AfroLink.Crypto.Sample
import AfroLink.P2p.Lemmas.Network

/-!
# Mutual authentication
-/

namespace AfroLink

variable {ρ : Type} [Curve ρ]

namespace Network

variable {held : ρ → Prop} {honest : PublicKey → Prop} {n : Network ρ} {x y : Exchange ρ} {est : Established (Symbol ρ)}

theorem Sound.partner (h : Sound held honest n) (hx : (x, est) ∈ n.established)
    (htheirs : ∀ q, Curve.pointOf x.theirs = some q → ¬ held q) : ∃ y ∈ n.exchanges,
      y.identity = est.peer ∧ y.claim = est.listen ∧ y.pending.transcript = x.pending.transcript ∧ y.ours ≠ x.ours ∧
      est.session.send = x.pending.session.send ∧ est.session.recv.cipher = x.pending.session.recv.cipher := by
  obtain ⟨hmem, frame, expected, hframe, hfinish⟩ := h.finished x est hx
  obtain ⟨auth, plaintext, hdone⟩ := Pending.finish_eq_ok hfinish
  obtain ⟨y, hy, hkey, rfl⟩ := h.sealed hmem hdone hframe htheirs
  obtain ⟨htranscript, hne⟩ := Exchange.of_send_eq_recv hkey
  have hlisten : y.claim = est.listen := by
    rw [hdone.listen]
    show y.claim = (y.listen.filter isDialable).filter isDialable
    rw [Option.filter_filter]
    simp [Exchange.claim]
  exact ⟨y, hy, hdone.peer.symm, hlisten, htranscript, fun hours => hne (h.eq_of_ours hmem hy hours), hdone.send,
    hdone.recv⟩

theorem Sound.theirs_secret (h : Sound held honest n) (hx : (x, est) ∈ n.established) (hpeer : honest est.peer.key) :
    ∀ q, Curve.pointOf x.theirs = some q → ¬ held q := by
  intro q hq
  obtain ⟨hmem, frame, expected, hframe, hfinish⟩ := h.finished x est hx
  obtain ⟨auth, plaintext, hdone⟩ := Pending.finish_eq_ok hfinish
  rw [hdone.peer] at hpeer
  obtain ⟨z, hz, hkey, htranscript⟩ := Sound.signed hdone hframe hpeer
  have hours : z.ours ≠ x.ours := by
    intro hours
    rw [h.eq_of_ours hmem hz hours] at hkey
    exact hdone.other (by rw [hdone.peer, ← hkey])
  rw [← (Exchange.met htranscript hours).2.1] at hq
  exact h.point_secret hz hq

theorem exists_finished (c : ChainId) (e e' : Scalar) {p q : ρ} (hp : Curve.pointOf (Curve.publicOf ρ e) = some p)
    (hq : Curve.pointOf (Curve.publicOf ρ e') = some q) (hne : p ≠ q) (hheld : ¬ held p) (hheld' : ¬ held q)
    (key key' : SecretKey) (hkey : honest (Curve.verifyingKey ρ key)) (hkey' : honest (Curve.verifyingKey ρ key'))
    (hkeys : Curve.verifyingKey ρ key' ≠ Curve.verifyingKey ρ key) :
    ∃ (n : Network ρ) (x y : Exchange ρ) (est est' : _), n.Reachable held honest ∧ (x, est) ∈ n.established ∧
      (y, est') ∈ n.established ∧ x.key = key ∧ y.key = key' ∧ est.peer = y.identity := by
  let h : Handshake (Symbol ρ) := ⟨c, e, Curve.publicOf ρ e, rfl⟩
  let h' : Handshake (Symbol ρ) := ⟨c, e', Curve.publicOf ρ e', rfl⟩
  obtain ⟨x, hx, rfl, hxtheirs⟩ := Exchange.exists_of_hello h h' hp hq key
  obtain ⟨y, hy, rfl, hytheirs⟩ := Exchange.exists_of_hello h' h hq hp key'
  have hxours : x.ours = Curve.publicOf ρ e := congrArg Handshake.ours hx
  have hyours : y.ours = Curve.publicOf ρ e' := congrArg Handshake.ours hy
  have hours : y.ours ≠ x.ours := by
    rw [hxours, hyours]
    intro heq
    rw [heq, hp] at hq
    exact hne (Option.some.inj hq)
  have htranscript : y.pending.transcript = x.pending.transcript :=
    Exchange.transcript_of_met (by rw [hx, hy]) (hyours.trans hxtheirs.symm) (hytheirs.trans hxours.symm)
  have hidentity : y.identity ≠ x.identity := fun heq => hkeys (congrArg PeerId.key heq)
  obtain ⟨est, hest, hpeer⟩ := Exchange.finish_of_met htranscript hours hidentity
  obtain ⟨est', hest', -⟩ := Exchange.finish_of_met htranscript.symm hours.symm hidentity.symm
  have hframe : ∀ z ∈ [y, x], ∀ t ∈ z.pending.authFrame,
      (knowledge held honest (⟨[], [y, x], [y, x], []⟩ : Network ρ)).Derivable t := by
    intro z hz t ht
    rw [z.frame_eq] at ht
    cases List.mem_singleton.1 ht
    exact .sent ⟨z, hz, z.frame_eq⟩
  refine ⟨⟨[], [y, x], [], [(y, est'), (x, est)]⟩, x, y, est, est', ?_, .tail _ (.head _), .head _, rfl, rfl, hpeer⟩
  have hstarted : Step held honest empty (⟨[h], [], [], []⟩ : Network ρ) :=
    .start rfl (fun r hr => Option.some.inj (hp.symm.trans hr) ▸ hheld) (List.not_mem_nil)
  have hboth : Step held honest (⟨[h], [], [], []⟩ : Network ρ) ⟨[h', h], [], [], []⟩ := by
    refine .start rfl (fun r hr => Option.some.inj (hq.symm.trans hr) ▸ hheld') ?_
    show Curve.pointOf (Curve.publicOf ρ e') ∉ [Curve.pointOf (Curve.publicOf ρ e)]
    rw [hp, hq, List.mem_singleton]
    exact fun heq => hne (Option.some.inj heq).symm
  have hfirst : Step held honest (⟨[h', h], [], [], []⟩ : Network ρ) ⟨[h'], [x], [x], []⟩ :=
    .respond [h'] [] x (by rw [hx]; rfl) hkey
  have hsecond : Step held honest (⟨[h'], [x], [x], []⟩ : Network ρ) ⟨[], [y, x], [y, x], []⟩ :=
    .respond [] [] y (by rw [hy]; rfl) hkey'
  have hdone : Step held honest (⟨[], [y, x], [y, x], []⟩ : Network ρ) ⟨[], [y, x], [y], [(x, est)]⟩ :=
    .finish [y] [] x rfl (hframe y (.head _)) hest
  have hboth' : Step held honest (⟨[], [y, x], [y], [(x, est)]⟩ : Network ρ) ⟨[], [y, x], [], [(y, est'), (x, est)]⟩ :=
    .finish [] [] y rfl (hframe x (.tail _ (.head _))) hest'
  exact (((((Relation.ReflTransGen.single hstarted).tail hboth).tail hfirst).tail hsecond).tail hdone).tail hboth'

end Network

/-- Mutual authentication: whoever finishes with an honest peer finished with an exchange of that peer that agrees with
it on the chain, the protocol version, both ephemeral keys, the peer's address and the keys of the two directions; and
that exchange, if it finishes, finishes with this node. -/
theorem mutual_authentication {held : ρ → Prop} {honest : PublicKey → Prop} {n : Network ρ}
    (h : n.Reachable held honest) {x : Exchange ρ} {est : Established (Symbol ρ)} (hx : (x, est) ∈ n.established)
    (hpeer : honest est.peer.key) : ∃ y ∈ n.exchanges, y.identity = est.peer ∧
      y.handshake.chainId = x.handshake.chainId ∧ y.version = x.version ∧ s(y.ours, y.theirs) = s(x.ours, x.theirs) ∧
      est.listen = y.claim ∧ est.session.send.cipher = y.pending.session.recv.cipher ∧
      est.session.recv.cipher = y.pending.session.send.cipher ∧
      ∀ est', (y, est') ∈ n.established → est'.peer = x.identity := by
  have hsound := h.sound
  have hmem := (hsound.finished x est hx).1
  obtain ⟨y, hy, hidentity, hclaim, htranscript, hours, hsend, hrecv⟩ :=
    hsound.partner hx (hsound.theirs_secret hx hpeer)
  obtain ⟨hchain, hyx, hxy⟩ := Exchange.met htranscript hours
  obtain ⟨p, _, hcx⟩ := x.computed
  obtain ⟨_, _, hcy⟩ := y.computed
  refine ⟨y, hy, hidentity, hchain, ?_, ?_, hclaim.symm, ?_, ?_, ?_⟩
  · rw [hcx.version, hcy.version]
  · rw [hyx, hxy, Sym2.eq_swap]
  · rw [hsend, Exchange.send_eq_recv htranscript.symm hours.symm]
  · rw [hrecv, Exchange.send_eq_recv htranscript hours]
  · intro est' hest'
    have hsecret : ∀ q, Curve.pointOf y.theirs = some q → ¬ held q := by
      intro q hq
      rw [hxy] at hq
      exact hsound.point_secret hmem hq
    obtain ⟨w, hw, hpeer', -, htranscript', hours', -⟩ := hsound.partner hest' hsecret
    obtain ⟨-, hwy, -⟩ := Exchange.met htranscript' hours'
    rw [← hpeer', hsound.eq_of_ours hmem hw (hwy.trans hxy)]

namespace Sample

instance curve : Curve X25519Key := ⟨id, some, fun key => ⟨key.bytes⟩⟩

def heldPoint (p : X25519Key) : Prop := p ≠ 1 ∧ p ≠ 2

def honestKey (key : PublicKey) : Prop := key.bytes = 5 ∨ key.bytes = 6

/-- Two honest nodes, and an attacker that holds every secret but theirs. -/
theorem mutual_authentication_pair : ∃ (n : Network X25519Key) (x : Exchange X25519Key) (est : _),
    n.Reachable heldPoint honestKey ∧ (x, est) ∈ n.established ∧ honestKey est.peer.key ∧
      ∃ y ∈ n.exchanges, y.identity = est.peer ∧ y.handshake.chainId = x.handshake.chainId ∧ y.version = x.version ∧
      s(y.ours, y.theirs) = s(x.ours, x.theirs) ∧ est.listen = y.claim ∧
      est.session.send.cipher = y.pending.session.recv.cipher ∧
      est.session.recv.cipher = y.pending.session.send.cipher ∧
      ∀ est', (y, est') ∈ n.established → est'.peer = x.identity := by
  obtain ⟨n, x, y, est, _, hreach, hx, -, -, hkey, hpeer⟩ : ∃ (n : Network X25519Key) (x y : Exchange X25519Key)
      (est est' : _), n.Reachable heldPoint honestKey ∧ _ :=
    Network.exists_finished chain 1 2 rfl rfl (by decide) (fun h => h.1 rfl) (fun h => h.2 rfl) ⟨5⟩ ⟨6⟩ (.inl rfl)
      (.inr rfl) (by decide)
  have hhonest : honestKey est.peer.key := by
    rw [hpeer, Exchange.identity, hkey]
    exact .inr rfl
  exact ⟨n, x, est, hreach, hx, hhonest, mutual_authentication hreach hx hhonest⟩

end Sample

end AfroLink
