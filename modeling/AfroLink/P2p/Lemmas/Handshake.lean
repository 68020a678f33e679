import AfroLink.P2p.Handshake

/-!
# What a handshake that goes through computed
-/

namespace AfroLink

variable {τ : Type} [Suite τ]

/-! ## Strings -/

theorem byte_injective : Function.Injective (Suite.byte : U8 → τ) := by
  intro a b h
  have hsome : Suite.asByte (Suite.byte a : τ) = Suite.asByte (Suite.byte b : τ) := by rw [h]
  rw [Suite.asByte_byte, Suite.asByte_byte] at hsome
  exact Option.some.inj hsome

theorem text_injective : Function.Injective (text : Bytes → List τ) := List.map_injective_iff.2 byte_injective

theorem text_append (x y : Bytes) : (text (x ++ y) : List τ) = text x ++ text y := List.map_append

theorem length_text (x : Bytes) : (text x : List τ).length = x.length := List.length_map _

/-! ## Transcripts and keys -/

theorem transcript_eq (c : ChainId) (ours theirs : X25519Key) : ∃ lower upper : X25519Key,
    s(lower, upper) = s(ours, theirs) ∧ (transcript c ours theirs : List τ) = Suite.hash .p2pTranscript
      (text (leBytes 2 PROTOCOL_VERSION.val ++ (encode c ++ (beBytes 32 lower.val ++ beBytes 32 upper.val)))) := by
  unfold transcript
  split_ifs
  · exact ⟨ours, theirs, rfl, by simp only [List.append_assoc]⟩
  · exact ⟨theirs, ours, Sym2.eq_swap, by simp only [List.append_assoc]⟩

theorem transcript_comm (c : ChainId) (ours theirs : X25519Key) :
    (transcript c theirs ours : List τ) = transcript c ours theirs := by
  unfold transcript
  rcases lt_trichotomy ours theirs with h | h | h
  · rw [if_neg h.not_ge, if_pos h.le]
  · rw [h]
  · rw [if_pos h.le, if_neg h.not_ge]

theorem transcript_inj (hash : Function.Injective (Suite.hash .p2pTranscript : List τ → List τ)) {c c' : ChainId}
    {ours theirs ours' theirs' : X25519Key}
    (h : (transcript c ours theirs : List τ) = transcript c' ours' theirs') :
    c = c' ∧ s(ours, theirs) = s(ours', theirs') := by
  obtain ⟨lower, upper, hpair, htext⟩ : ∃ lower upper, _ ∧ (_ : List τ) = _ := transcript_eq c ours theirs
  obtain ⟨lower', upper', hpair', htext'⟩ : ∃ lower upper, _ ∧ (_ : List τ) = _ := transcript_eq c' ours' theirs'
  rw [htext, htext'] at h
  have hbytes := List.append_cancel_left (text_injective (hash h))
  obtain ⟨hchain, hkeys⟩ := (reads c rfl).append_inj (reads c' rfl) hbytes
  obtain ⟨hlower, hupper⟩ := (reads (lower : Hash32) rfl).append_inj (reads (lower' : Hash32) rfl) hkeys
  have hupper : (upper : Hash32) = upper' := encode_inj rfl rfl hupper
  exact ⟨hchain, by rw [← hpair, ← hpair', hlower, hupper]⟩

theorem labels_ne (ours theirs : X25519Key) :
    utf8Bytes (Handshake.labels ours theirs).1 ≠ utf8Bytes (Handshake.labels ours theirs).2 := by
  unfold Handshake.labels
  split_ifs <;> decide +kernel

theorem labels_swap {ours theirs : X25519Key} (h : ours ≠ theirs) :
    Handshake.labels theirs ours = (Handshake.labels ours theirs).swap := by
  unfold Handshake.labels
  rcases lt_or_gt_of_ne h with hlt | hgt
  · rw [if_neg hlt.not_ge, if_pos hlt.le]
    rfl
  · rw [if_pos hgt.le, if_neg hgt.not_ge]
    rfl

/-! ## The authentication frame -/

namespace Auth

theorem leadingBytes_text (x : Bytes) (rest : List τ) : leadingBytes (text x ++ rest) = x ++ leadingBytes rest := by
  induction x with
  | nil => rfl
  | cons b x ih =>
    show leadingBytes (Suite.byte b :: (text x ++ rest)) = _
    rw [leadingBytes, Suite.asByte_byte]
    show b :: leadingBytes (text x ++ rest) = _
    rw [ih]
    rfl

theorem ofBytes_reads {α : Type} {d : Decoder α} {x : Bytes} {a : α} (h : Reads d x a) :
    Reads (ofBytes d : Reader τ CodecError α) (text x) a := by
  intro rest
  show ofBytes d (text x ++ rest) = _
  unfold ofBytes
  rw [leadingBytes_text, h]
  simp [length_text]

omit [Suite τ] in
theorem takeSymbols_reads (x : List τ) : Reads (takeSymbols x.length : Reader τ CodecError (List τ)) x x := by
  intro rest
  show takeSymbols x.length (x ++ rest) = _
  simp [takeSymbols]

theorem decodeExact_encode {a : Auth τ} (h : a.signature.length = Suite.signatureLen τ) :
    decodeExact a.encode = .ok a := by
  have hsignature : Reads (takeSymbols (Suite.signatureLen τ) : Reader τ CodecError (List τ)) a.signature a.signature :=
    h ▸ takeSymbols_reads a.signature
  have hreads : Reads decode a.encode a := by
    have hkey : Reads (ofBytes Decode.decode : Reader τ CodecError PublicKey) _ _ := ofBytes_reads (reads a.key rfl)
    have hall : Reads decode (text (Encode.encode a.key) ++ (text (encodeClaim a.listen) ++ a.signature)) a :=
      hkey.bind ((ofBytes_reads (decodeClaim_reads a.listen)).bind hsignature.last)
    exact hall.cast (by rw [Auth.encode, text_append, List.append_assoc])
  unfold decodeExact
  rw [hreads.run]

theorem ofBytes_suffix {α : Type} {d : Decoder α} {buf left : List τ} {a : α} (h : ofBytes d buf = .ok (a, left)) :
    left <:+ buf := by
  unfold ofBytes at h
  split at h
  · cases h
    exact List.drop_suffix _ _
  · cases h

omit [Suite τ] in
theorem takeSymbols_subset {n : ℕ} {buf left taken : List τ}
    (h : (takeSymbols n : Reader τ CodecError (List τ)).run buf = .ok (taken, left)) : taken ⊆ buf := by
  have hrun : takeSymbols n buf = .ok (taken, left) := h
  unfold takeSymbols at hrun
  split at hrun
  · cases hrun
  · cases hrun
    exact List.take_subset _ _

theorem mem_of_decodeExact {plaintext : List τ} {a : Auth τ} (h : decodeExact plaintext = .ok a) :
    a.signature ⊆ plaintext := by
  unfold decodeExact at h
  split at h
  · rename_i hrun
    cases h
    unfold decode at hrun
    simp only [StateT.run_bind] at hrun
    obtain ⟨⟨key, afterKey⟩, hkey, hrun⟩ := Except.bind_eq_ok.1 hrun
    obtain ⟨⟨listen, afterListen⟩, hlisten, hrun⟩ := Except.bind_eq_ok.1 hrun
    obtain ⟨⟨signature, left⟩, hsignature, hrun⟩ := Except.bind_eq_ok.1 hrun
    cases hrun
    intro t ht
    exact (ofBytes_suffix hkey).subset ((ofBytes_suffix hlisten).subset (takeSymbols_subset hsignature ht))
  · cases h
  · cases h

end Auth

/-! ## Both steps -/

namespace Handshake

/-- What `respond` computes when it goes through. -/
structure Responds (h : Handshake τ) (hello : Bytes) (key : SecretKey) (listen : Option SocketAddr) (shared : List τ)
    (p : Pending τ) : Prop where
  version : helloVersion hello = PROTOCOL_VERSION
  agreed : Suite.diffieHellman h.ephemeral (helloKey hello) = some shared
  transcript : p.transcript = AfroLink.transcript h.chainId h.ours (helloKey hello)
  send : p.session.send.cipher = directionKey (labels h.ours (helloKey hello)).1 shared p.transcript
  recv : p.session.recv = .new (directionKey (labels h.ours (helloKey hello)).2 shared p.transcript)
  frame : Aead.encrypt p.session.send.cipher (Direction.nonce 0) (prove key listen p.transcript).encode [] =
    some p.authFrame

theorem respond_eq_ok {h : Handshake τ} {hello : Bytes} {key : SecretKey} {listen : Option SocketAddr} {p : Pending τ}
    (hp : h.respond hello key listen = .ok p) : ∃ shared, h.Responds hello key listen shared p := by
  unfold respond at hp
  obtain ⟨-, hp⟩ := Except.guard_eq_ok.1 hp
  obtain ⟨hversion, hp⟩ := Except.guard_eq_ok.1 hp
  dsimp only at hp
  split at hp
  · cases hp
  · rename_i shared hagreed
    dsimp only [Secret.Session.sealFrame, Secret.Session.new, Direction.sealFrame, Direction.nextNonce_new] at hp
    cases hseal : Aead.encrypt (directionKey (labels h.ours (helloKey hello)).1 shared
        (AfroLink.transcript h.chainId h.ours (helloKey hello))) (Direction.nonce 0)
        (prove key listen (AfroLink.transcript h.chainId h.ours (helloKey hello))).encode [] with
    | none =>
      rw [hseal] at hp
      cases hp
    | some frame =>
      rw [hseal] at hp
      cases hp
      exact ⟨shared, not_not.1 hversion, hagreed, rfl, rfl, rfl, hseal⟩

theorem hello_reads (k : X25519Key) :
    (leBytes 2 PROTOCOL_VERSION.val ++ beBytes 32 k.val).length = HELLO_LEN ∧
      helloVersion (leBytes 2 PROTOCOL_VERSION.val ++ beBytes 32 k.val) = PROTOCOL_VERSION ∧
      helloKey (leBytes 2 PROTOCOL_VERSION.val ++ beBytes 32 k.val) = k := by
  refine ⟨?_, ?_, ?_⟩
  · rw [List.length_append, length_leBytes, length_beBytes]
    rfl
  · rfl
  · have hkey : (leBytes 2 PROTOCOL_VERSION.val ++ beBytes 32 k.val).drop 2 = beBytes 32 k.val := rfl
    unfold helloKey
    rw [hkey, fromBe, beBytes, List.reverse_reverse, fromLe_leBytes (k.isLt.trans_le (by decide))]
    exact Fin.ofNat_val_eq_self k

theorem respond_of_agreed {h : Handshake τ} {hello : Bytes} {key : SecretKey} {listen : Option SocketAddr}
    {shared : List τ}
    (seals : ∀ key nonce plaintext associated, (Aead.encrypt key nonce plaintext associated : Option (List τ)).isSome)
    (hlen : hello.length = HELLO_LEN) (hversion : helloVersion hello = PROTOCOL_VERSION)
    (hagreed : Suite.diffieHellman h.ephemeral (helloKey hello) = some shared) :
    ∃ p, h.respond hello key listen = .ok p := by
  obtain ⟨frame, hframe⟩ := Option.isSome_iff_exists.1 (seals
    (directionKey (labels h.ours (helloKey hello)).1 shared (AfroLink.transcript h.chainId h.ours (helloKey hello)))
    (Direction.nonce 0) (prove key listen (AfroLink.transcript h.chainId h.ours (helloKey hello))).encode [])
  unfold respond
  rw [if_neg (not_not.2 hlen), if_neg (not_not.2 hversion)]
  dsimp only
  rw [hagreed]
  dsimp only [Secret.Session.sealFrame, Secret.Session.new, Direction.sealFrame, Direction.nextNonce_new]
  rw [hframe]
  exact ⟨_, rfl⟩

end Handshake

namespace Pending

/-- What `finish` checked when it goes through. -/
structure Finishes (p : Pending τ) (frame : List τ) (ours : PeerId) (auth : Auth τ) (plaintext : List τ)
    (est : Established τ) : Prop where
  opens : Aead.decrypt p.session.recv.cipher (Direction.nonce p.session.recv.counter) frame [] = some plaintext
  decodes : Auth.decodeExact plaintext = .ok auth
  verifies : Suite.verify auth.key .p2pHandshakeSignDoc (signDoc p.transcript auth.listen) auth.signature = true
  peer : est.peer = ⟨auth.key⟩
  other : est.peer ≠ ours
  listen : est.listen = auth.listen.filter isDialable
  send : est.session.send = p.session.send
  recv : est.session.recv.cipher = p.session.recv.cipher

theorem finish_eq_ok {p : Pending τ} {frame : List τ} {ours : PeerId} {expected : Option PeerId} {est : Established τ}
    (h : p.finish frame ours expected = .ok est) : ∃ auth plaintext, p.Finishes frame ours auth plaintext est := by
  unfold finish at h
  unfold Secret.Session.openFrame Direction.openFrame Direction.nextNonce at h
  dsimp only at h
  cases hcounter : Fin.checkedAdd p.session.recv.counter 1 with
  | none =>
    rw [hcounter] at h
    cases h
  | some counter =>
    rw [hcounter] at h
    dsimp only at h
    cases hopens : Aead.decrypt p.session.recv.cipher (Direction.nonce p.session.recv.counter) frame [] with
    | none =>
      rw [hopens] at h
      cases h
    | some plaintext =>
      rw [hopens] at h
      dsimp only at h
      split at h
      · cases h
      · rename_i auth hauth
        obtain ⟨hverify, h⟩ := Except.guard_eq_ok.1 h
        obtain ⟨hother, h⟩ := Except.guard_eq_ok.1 h
        refine ⟨auth, plaintext, ?_⟩
        have hverifies : Suite.verify auth.key .p2pHandshakeSignDoc (signDoc p.transcript auth.listen)
            auth.signature = true := by simpa using hverify
        split at h
        · obtain ⟨-, h⟩ := Except.guard_eq_ok.1 h
          cases h
          exact ⟨hopens, hauth, hverifies, rfl, hother, rfl, rfl, rfl⟩
        · cases h
          exact ⟨hopens, hauth, hverifies, rfl, hother, rfl, rfl, rfl⟩

theorem finish_of_authentic {p : Pending τ} {key frame plaintext : List τ} {ours : PeerId} {auth : Auth τ}
    (hrecv : p.session.recv = .new key) (hopens : Aead.decrypt key (Direction.nonce 0) frame [] = some plaintext)
    (hdecodes : Auth.decodeExact plaintext = .ok auth)
    (hverifies : Suite.verify auth.key .p2pHandshakeSignDoc (signDoc p.transcript auth.listen) auth.signature = true)
    (hother : (⟨auth.key⟩ : PeerId) ≠ ours) : ∃ est, p.finish frame ours none = .ok est ∧ est.peer = ⟨auth.key⟩ := by
  unfold finish
  dsimp only [Secret.Session.openFrame, Direction.openFrame]
  rw [hrecv]
  dsimp only [Direction.nextNonce_new]
  rw [hopens]
  dsimp only
  rw [hdecodes]
  dsimp only
  rw [if_neg (by simp [hverifies]), if_neg hother]
  exact ⟨_, rfl, rfl⟩

end Pending

end AfroLink
