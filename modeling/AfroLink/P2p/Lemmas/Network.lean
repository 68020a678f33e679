import AfroLink.P2p.Lemmas.Handshake
import AfroLink.P2p.Network

/-!
# What an exchange fixes, and what the attacker makes of it
-/

namespace AfroLink

variable {ρ : Type} [Curve ρ]

/-! ## Terms -/

omit [Curve ρ] in
theorem decrypt_symbolic {key frame associated plaintext : List (Symbol ρ)} {nonce : Bytes}
    (h : Aead.decrypt key nonce frame associated = some plaintext) :
    frame = [.cipher key (nonce.map .byte) associated plaintext] := by
  simp only [Aead.decrypt] at h
  split at h
  · split_ifs at h with hsame
    obtain ⟨rfl, rfl, rfl⟩ := hsame
    cases h
    rfl
  · cases h

theorem verify_symbolic {key : PublicKey} {domain : Domain} {doc signature : List (Symbol ρ)}
    (h : Suite.verify key domain doc signature = true) : signature = [.signature key domain doc] := by
  classical exact of_decide_eq_true h

theorem hash_symbolic (domain : Domain) : Function.Injective (Suite.hash domain : List (Symbol ρ) → List (Symbol ρ)) := by
  intro a b h
  cases h
  rfl

theorem transcript_symbolic (c : ChainId) (ours theirs : X25519Key) : ∃ bytes : Bytes,
    (transcript c ours theirs : List (Symbol ρ)) = [.digest .p2pTranscript (text bytes)] := by
  obtain ⟨_, _, -, h⟩ : ∃ lower upper, _ ∧ (_ : List (Symbol ρ)) = _ := transcript_eq c ours theirs
  exact ⟨_, h⟩

theorem directionKey_inj {label label' : String} {points points' : Sym2 ρ} {t t' : Symbol ρ}
    (h : directionKey label [.shared points] [t] = directionKey label' [.shared points'] [t']) :
    utf8Bytes label = utf8Bytes label' ∧ points = points' ∧ t = t' := by
  obtain ⟨hfront, ht⟩ := List.append_inj' (hash_symbolic _ h) rfl
  obtain ⟨hlabel, hpoints⟩ := List.append_inj' hfront rfl
  cases ht
  cases hpoints
  exact ⟨text_injective hlabel, rfl, rfl⟩

namespace Exchange

variable (x y : Exchange ρ)

noncomputable def auth : Auth (Symbol ρ) := Handshake.prove x.key x.listen x.pending.transcript

structure Computed (p q : ρ) : Prop where
  ours : Curve.pointOf x.ours = some p
  theirs : Curve.pointOf x.theirs = some q
  version : x.version = PROTOCOL_VERSION
  transcript : x.pending.transcript = transcript x.handshake.chainId x.ours x.theirs
  send : x.pending.session.send.cipher =
    directionKey (Handshake.labels x.ours x.theirs).1 [.shared s(p, q)] x.pending.transcript
  recv : x.pending.session.recv =
    .new (directionKey (Handshake.labels x.ours x.theirs).2 [.shared s(p, q)] x.pending.transcript)
  frame : x.pending.authFrame =
    [.cipher x.pending.session.send.cipher (text (Direction.nonce 0)) [] x.auth.encode]

theorem computed : ∃ p q, x.Computed p q := by
  obtain ⟨shared, h⟩ := Handshake.respond_eq_ok x.ran
  obtain ⟨p, hp, hrest⟩ := Option.bind_eq_some_iff.1 h.agreed
  obtain ⟨q, hq, hshared⟩ := Option.bind_eq_some_iff.1 hrest
  cases hshared
  refine ⟨p, q, ?_, hq, h.version, h.transcript, h.send, h.recv, ?_⟩
  · have hours : x.ours = Curve.publicOf ρ x.handshake.ephemeral := x.handshake.derived
    rw [hours]
    exact hp
  · exact (Option.some.inj h.frame).symm

theorem frame_eq : x.pending.authFrame =
    [.cipher x.pending.session.send.cipher (text (Direction.nonce 0)) [] x.auth.encode] := by
  obtain ⟨_, _, h⟩ := x.computed
  exact h.frame

theorem recv_eq : x.pending.session.recv = .new x.pending.session.recv.cipher := by
  obtain ⟨_, _, h⟩ := x.computed
  rw [h.recv]
  rfl

theorem auth_reads : Auth.decodeExact x.auth.encode = .ok x.auth :=
  Auth.decodeExact_encode (Suite.length_sign _ _ _)

theorem exists_of_hello (h h' : Handshake (Symbol ρ)) {p q : ρ} (hp : Curve.pointOf h.ours = some p)
    (hq : Curve.pointOf h'.ours = some q) (key : SecretKey) :
    ∃ x : Exchange ρ, x.handshake = h ∧ x.key = key ∧ x.theirs = h'.ours := by
  obtain ⟨hlen, hversion, hkey⟩ := Handshake.hello_reads h'.ours
  have hagreed : Suite.diffieHellman h.ephemeral h'.ours = some [(.shared s(p, q) : Symbol ρ)] := by
    have hours : h.ours = Curve.publicOf ρ h.ephemeral := h.derived
    rw [hours] at hp
    exact Option.bind_eq_some_iff.2 ⟨p, hp, Option.bind_eq_some_iff.2 ⟨q, hq, rfl⟩⟩
  rw [← hkey] at hagreed
  obtain ⟨pending, hran⟩ : ∃ pending, h.respond _ key none = .ok pending :=
    Handshake.respond_of_agreed (fun _ _ _ _ => rfl) hlen hversion hagreed
  exact ⟨⟨h, _, key, none, pending, hran⟩, rfl, rfl, hkey⟩

variable {x y}

theorem met (htranscript : y.pending.transcript = x.pending.transcript) (hours : y.ours ≠ x.ours) :
    y.handshake.chainId = x.handshake.chainId ∧ y.ours = x.theirs ∧ y.theirs = x.ours := by
  obtain ⟨_, _, hx⟩ := x.computed
  obtain ⟨_, _, hy⟩ := y.computed
  rw [hx.transcript, hy.transcript] at htranscript
  obtain ⟨hchain, hpair⟩ := transcript_inj (hash_symbolic _) htranscript
  rcases Sym2.eq_iff.1 hpair with ⟨hsame, -⟩ | hswap
  · exact absurd hsame hours
  · exact ⟨hchain, hswap⟩

theorem send_eq_recv (htranscript : y.pending.transcript = x.pending.transcript) (hours : y.ours ≠ x.ours) :
    y.pending.session.send.cipher = x.pending.session.recv.cipher := by
  obtain ⟨-, hyx, hxy⟩ := met htranscript hours
  obtain ⟨p, q, hx⟩ := x.computed
  obtain ⟨p', q', hy⟩ := y.computed
  have hp : p' = q := Option.some.inj (by rw [← hy.ours, hyx, hx.theirs])
  have hq : q' = p := Option.some.inj (by rw [← hy.theirs, hxy, hx.ours])
  have hne : x.ours ≠ x.theirs := hyx ▸ hours.symm
  rw [hy.send, hx.recv, htranscript, hyx, hxy, labels_swap hne, hp, hq, Sym2.eq_swap]
  rfl

theorem transcript_of_met (hchain : y.handshake.chainId = x.handshake.chainId) (hyx : y.ours = x.theirs)
    (hxy : y.theirs = x.ours) : y.pending.transcript = x.pending.transcript := by
  obtain ⟨_, _, hx⟩ := x.computed
  obtain ⟨_, _, hy⟩ := y.computed
  rw [hx.transcript, hy.transcript, hchain, hyx, hxy, transcript_comm]

theorem finish_of_met (htranscript : y.pending.transcript = x.pending.transcript) (hours : y.ours ≠ x.ours)
    (hother : y.identity ≠ x.identity) :
    ∃ est, x.pending.finish y.pending.authFrame x.identity none = .ok est ∧ est.peer = y.identity := by
  refine Pending.finish_of_authentic x.recv_eq ?_ y.auth_reads ?_ hother
  · rw [y.frame_eq, send_eq_recv htranscript hours]
    exact if_pos ⟨rfl, rfl, rfl⟩
  · classical
    refine decide_eq_true ?_
    rw [← htranscript]
    rfl

theorem of_send_eq_recv (h : y.pending.session.send.cipher = x.pending.session.recv.cipher) :
    y.pending.transcript = x.pending.transcript ∧ y ≠ x := by
  obtain ⟨p, q, hx⟩ := x.computed
  obtain ⟨p', q', hy⟩ := y.computed
  obtain ⟨bytes, hxt⟩ := transcript_symbolic (ρ := ρ) x.handshake.chainId x.ours x.theirs
  obtain ⟨bytes', hyt⟩ := transcript_symbolic (ρ := ρ) y.handshake.chainId y.ours y.theirs
  rw [← hx.transcript] at hxt
  rw [← hy.transcript] at hyt
  rw [hy.send, hx.recv, hxt, hyt] at h
  obtain ⟨hlabel, -, ht⟩ := directionKey_inj h
  refine ⟨by rw [hxt, hyt, ht], ?_⟩
  rintro rfl
  exact labels_ne _ _ hlabel

end Exchange

/-! ## The attacker -/

namespace Network

variable {held : ρ → Prop} {honest : PublicKey → Prop} {n : Network ρ}

theorem knowledge_closed : (n.knowledge held honest).Closed := by
  rintro key nonce associated plaintext ⟨x, hx, hframe⟩ t ht
  rw [x.frame_eq] at hframe
  cases hframe
  rcases List.mem_append.1 ht with hbyte | hsignature
  · obtain ⟨b, -, rfl⟩ := List.mem_map.1 hbyte
    exact .byte b
  · cases List.mem_singleton.1 hsignature
    exact .made ⟨x, hx, rfl, rfl, rfl⟩

/-- What holds of every network the honest nodes reach: their secrets are their own and all different, and whoever
finished got a frame the attacker could have. -/
structure Sound (held : ρ → Prop) (honest : PublicKey → Prop) (n : Network ρ) : Prop where
  secret : ∀ p, some p ∈ n.points → ¬ held p
  distinct : n.points.Nodup
  waiting : ∀ x ∈ n.waiting, x ∈ n.exchanges
  finished : ∀ x est, (x, est) ∈ n.established → x ∈ n.exchanges ∧ ∃ frame expected,
    (∀ t ∈ frame, (n.knowledge held honest).Derivable t) ∧ x.pending.finish frame x.identity expected = .ok est

theorem knowledge_mono {m : Network ρ} (h : n.exchanges ⊆ m.exchanges) :
    (n.knowledge held honest).Le (m.knowledge held honest) where
  holds _ hx := hx
  signs _ _ hsign := hsign
  seals := by
    rintro key nonce associated ⟨⟨x, hx, hkey⟩, hnonce⟩
    exact ⟨⟨x, h hx, hkey⟩, hnonce⟩
  sent := by
    rintro key nonce associated plaintext ⟨x, hx, hframe⟩
    exact ⟨x, h hx, hframe⟩

theorem sound_empty : Sound held honest (empty : Network ρ) where
  secret p hp := by cases hp
  distinct := List.nodup_nil
  waiting x hx := by cases hx
  finished x est hx := by cases hx

theorem Sound.finished_mono {m : Network ρ} (h : Sound held honest n) (hsub : n.exchanges ⊆ m.exchanges) {x : Exchange ρ}
    {est : Established (Symbol ρ)} (hx : (x, est) ∈ n.established) : x ∈ m.exchanges ∧ ∃ frame expected,
      (∀ t ∈ frame, (m.knowledge held honest).Derivable t) ∧ x.pending.finish frame x.identity expected = .ok est := by
  obtain ⟨hmem, frame, expected, hframe, hfinish⟩ := h.finished x est hx
  exact ⟨hsub hmem, frame, expected, fun t ht => (hframe t ht).mono (knowledge_mono hsub), hfinish⟩

theorem Step.sound {m : Network ρ} (hstep : Step held honest n m) (h : Sound held honest n) : Sound held honest m := by
  cases hstep with
  | start hstart hsecret hfresh =>
    refine ⟨?_, List.nodup_cons.2 ⟨hfresh, h.distinct⟩, h.waiting, h.finished⟩
    intro p hp
    rcases List.mem_cons.1 hp with hnew | hold
    · exact hsecret p hnew.symm
    · exact h.secret p hold
  | respond before after x hopen hhonest =>
    have hpoints : (Network.points ⟨before ++ after, x :: n.exchanges, x :: n.waiting, n.established⟩).Perm n.points := by
      unfold points
      refine List.Perm.map _ ?_
      rw [hopen]
      simp only [List.map_append, List.map_cons, List.append_assoc, List.cons_append]
      exact List.perm_middle.append_left _
    refine ⟨fun p hp => h.secret p (hpoints.subset hp), hpoints.nodup_iff.2 h.distinct, ?_, ?_⟩
    · intro y hy
      rcases List.mem_cons.1 hy with rfl | hold
      · exact .head _
      · exact .tail _ (h.waiting y hold)
    · intro y est hy
      exact h.finished_mono (List.subset_cons_self _ _) hy
  | finish before after x hwaiting hframe hfinish =>
    have hx : x ∈ n.exchanges := h.waiting x (hwaiting ▸ List.mem_append_right _ (.head _))
    refine ⟨h.secret, h.distinct, ?_, ?_⟩
    · intro y hy
      refine h.waiting y (hwaiting ▸ ?_)
      exact (List.sublist_cons_self x after).append_left before |>.subset hy
    · intro y est' hy
      rcases List.mem_cons.1 hy with hnew | hold
      · cases hnew
        exact ⟨hx, _, _, hframe, hfinish⟩
      · exact h.finished y est' hold
  | drop hopened hwaiting =>
    have hpoints := ((hopened.map (·.ours)).append_right (n.exchanges.map Exchange.ours)).map
      (Curve.pointOf : X25519Key → Option ρ)
    exact ⟨fun p hp => h.secret p (hpoints.subset hp), hpoints.nodup h.distinct,
      fun x hx => h.waiting x (hwaiting.subset hx), h.finished⟩

theorem Reachable.sound (h : n.Reachable held honest) : Sound held honest n := by
  induction h with
  | refl => exact sound_empty
  | tail _ hstep ih => exact hstep.sound ih

/-! ## Who made a frame -/

section

variable {x y : Exchange ρ} {frame plaintext : List (Symbol ρ)} {auth : Auth (Symbol ρ)}
  {est : Established (Symbol ρ)}

theorem Sound.point_secret (h : Sound held honest n) (hx : x ∈ n.exchanges) {p : ρ}
    (hp : Curve.pointOf x.ours = some p) : ¬ held p := by
  refine h.secret p (List.mem_map.2 ⟨x.ours, List.mem_append_right _ ?_, hp⟩)
  exact List.mem_map_of_mem hx

theorem Sound.eq_of_ours (h : Sound held honest n) (hx : x ∈ n.exchanges) (hy : y ∈ n.exchanges)
    (hours : y.ours = x.ours) : y = x := by
  have hnodup := (List.nodup_append.1 h.distinct.of_map).2.1
  exact List.inj_on_of_nodup_map hnodup hy hx hours

theorem frame_built (hfinish : x.pending.Finishes frame x.identity auth plaintext est)
    (hframe : ∀ t ∈ frame, (n.knowledge held honest).Derivable t) :
    (n.knowledge held honest).Built
      (.cipher x.pending.session.recv.cipher (text (Direction.nonce 0)) [] plaintext) := by
  have hopens := hfinish.opens
  rw [x.recv_eq] at hopens
  have heq := decrypt_symbolic hopens
  refine (hframe _ ?_).built knowledge_closed
  rw [heq]
  exact List.mem_singleton_self _

theorem Sound.sealed (h : Sound held honest n) (hx : x ∈ n.exchanges)
    (hfinish : x.pending.Finishes frame x.identity auth plaintext est)
    (hframe : ∀ t ∈ frame, (n.knowledge held honest).Derivable t)
    (htheirs : ∀ q, Curve.pointOf x.theirs = some q → ¬ held q) :
    ∃ y ∈ n.exchanges, y.pending.session.send.cipher = x.pending.session.recv.cipher ∧ auth = y.auth := by
  rcases (frame_built hfinish hframe).sealer with hkey | ⟨-, hnonce⟩ | ⟨y, hy, hsent⟩
  · obtain ⟨p, q, hc⟩ := x.computed
    rw [hc.recv] at hkey
    have hdigest := (hkey _ (List.mem_singleton_self _)).hashed (.shared s(p, q)) (by simp)
    obtain ⟨z, hz, hheld⟩ := hdigest.holds
    rcases Sym2.mem_iff.1 hz with rfl | rfl
    · exact absurd hheld (h.point_secret hx hc.ours)
    · exact absurd hheld (htheirs _ hc.theirs)
  · exact absurd rfl hnonce
  · rw [y.frame_eq] at hsent
    injection hsent with hcipher
    injection hcipher with hkey _ _ hplain
    refine ⟨y, hy, hkey, ?_⟩
    have hdecodes := hfinish.decodes
    rw [← hplain, y.auth_reads] at hdecodes
    exact (Except.ok.inj hdecodes).symm

theorem Sound.signed (hfinish : x.pending.Finishes frame x.identity auth plaintext est)
    (hframe : ∀ t ∈ frame, (n.knowledge held honest).Derivable t) (hhonest : honest auth.key) :
    ∃ y ∈ n.exchanges, y.identity.key = auth.key ∧ y.pending.transcript = x.pending.transcript := by
  have hsignature := verify_symbolic hfinish.verifies
  have hmem : _ ∈ plaintext := Auth.mem_of_decodeExact hfinish.decodes (hsignature ▸ List.mem_singleton_self _)
  rcases ((frame_built hfinish hframe).opened _ hmem).signer with hforged | ⟨y, hy, hkey, -, hdoc⟩
  · rcases hforged with hkey | hdomain
    · exact absurd hhonest hkey
    · exact absurd rfl hdomain
  · refine ⟨y, hy, hkey, ?_⟩
    obtain ⟨_, _, hx⟩ := x.computed
    obtain ⟨_, _, hy⟩ := y.computed
    obtain ⟨bytes, hxt⟩ := transcript_symbolic (ρ := ρ) x.handshake.chainId x.ours x.theirs
    obtain ⟨bytes', hyt⟩ := transcript_symbolic (ρ := ρ) y.handshake.chainId y.ours y.theirs
    rw [hx.transcript, hy.transcript, hxt, hyt] at hdoc ⊢
    exact (List.append_inj hdoc rfl).1

end

end Network

end AfroLink
