import AfroLink.Crypto.Basic
import AfroLink.Primitives.Decode

/-!
# What a hash was asked for

Every digest is BLAKE3 of a domain and the data behind it. Inputs of different domains differ, and so do inputs of one
domain with different data. `CollisionFree l`: no two different inputs of `l` share a digest.
-/

namespace AfroLink

/-! ## Inputs -/

def Domain.all : List Domain :=
  [address, txSignDoc, txId, blockId, merkleLeaf, merkleNode, stateLeaf, stateNode, voteSignDoc, validatorId,
    groupAddress, moduleAddress, validatorSetHash, contactCommitment, witnessLogId, treeHeadSignDoc, witnessEntry,
    p2pTranscript, p2pSessionKey, p2pHandshakeSignDoc, genesisId, p2pAddrBucket]

theorem Domain.find_asStr (d : Domain) : all.find? (fun d' => d'.asStr = d.asStr) = some d := by
  cases d <;> decide

variable {d d' : Domain} {x y : Bytes} {l : List Bytes}

theorem Domain.asStr_injective (h : d.asStr = d'.asStr) : d = d' := by
  have hd := find_asStr d
  rw [h, find_asStr] at hd
  exact (Option.some.inj hd).symm

theorem absorbDomain_reads (d : Domain) : Reads (decode : Decoder String) (absorbDomain d) d.asStr := by
  refine reads d.asStr (decide_eq_true ?_)
  rw [utf8Bytes_length]
  cases d <;> decide

theorem absorbDomain_inj (h : absorbDomain d ++ x = absorbDomain d' ++ y) : d = d' ∧ x = y := by
  have hread := absorbDomain_reads d x
  rw [h, absorbDomain_reads d' y] at hread
  obtain ⟨hd, hx⟩ := Prod.mk.inj (Except.ok.inj hread)
  exact ⟨(Domain.asStr_injective hd).symm, hx.symm⟩

theorem Hash32.length_asBytes (h : Hash32) : h.asBytes.length = 32 := length_beBytes 32 h.val

theorem Hash32.asBytes_injective {h h' : Hash32} (heq : h.asBytes = h'.asBytes) : h = h' := by
  have hread : Reads (decodeBe 32 (2 ^ 256)) h.asBytes h := decodeBe_reads (by decide) h
  have hread' : Reads (decodeBe 32 (2 ^ 256)) h'.asBytes h' := decodeBe_reads (by decide) h'
  exact hread.unique (heq ▸ hread')

theorem Hash32.append_asBytes_inj {h h' : Hash32} (heq : h.asBytes ++ x = h'.asBytes ++ y) : h = h' ∧ x = y := by
  obtain ⟨hbytes, hx⟩ := List.append_inj heq (h.length_asBytes.trans h'.length_asBytes.symm)
  exact ⟨asBytes_injective hbytes, hx⟩

/-- What BLAKE3 is given for two hashes, one after the other. -/
def pairInput (d : Domain) (pair : Hash32 × Hash32) : Bytes := absorbDomain d ++ (pair.1.asBytes ++ pair.2.asBytes)

/-! ## Collisions -/

variable [Crypto]

theorem hashParts_pair (d : Domain) (l r : Hash32) :
    hashParts d [l.asBytes, r.asBytes] = hash d (l.asBytes ++ r.asBytes) := by
  simp [hashParts]

def CollisionFree (inputs : List Bytes) : Prop :=
  ∀ x ∈ inputs, ∀ y ∈ inputs, Crypto.blake3 x = Crypto.blake3 y → x = y

instance (inputs : List Bytes) : Decidable (CollisionFree inputs) := inferInstanceAs (Decidable (∀ _ ∈ _, _))

theorem CollisionFree.mono {l' : List Bytes} (h : CollisionFree l') (hsub : l ⊆ l') : CollisionFree l :=
  fun x hx y hy => h x (hsub hx) y (hsub hy)

theorem CollisionFree.hash_inj (h : CollisionFree l)
    (hx : absorbDomain d ++ x ∈ l) (hy : absorbDomain d' ++ y ∈ l) (heq : hash d x = hash d' y) : d = d' ∧ x = y :=
  absorbDomain_inj (h _ hx _ hy heq)

theorem CollisionFree.pair_inj (h : CollisionFree l) {p q : Hash32 × Hash32}
    (hp : pairInput d p ∈ l) (hq : pairInput d q ∈ l)
    (heq : hashParts d [p.1.asBytes, p.2.asBytes] = hashParts d [q.1.asBytes, q.2.asBytes]) : p = q := by
  rw [hashParts_pair, hashParts_pair] at heq
  obtain ⟨hleft, hright⟩ := Hash32.append_asBytes_inj (h.hash_inj hp hq heq).2
  exact Prod.ext hleft (Hash32.asBytes_injective hright)

end AfroLink
