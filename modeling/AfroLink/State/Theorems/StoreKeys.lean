import AfroLink.State.Store
import AfroLink.Crypto.Lemmas.Hashing

/-!
# Keys of the state

Every key is a namespace and a list of parts, each part behind its length: the bytes say which key they are.
-/

namespace AfroLink

inductive Namespace where
  | account | balance | supply | issuer | validator | delegation | params | contract | frozen | «alias» | aliasSkeleton
  | aliasReverse | contact | attestor | unbonding | bondIndex | council | proposal | proposalIndex
deriving DecidableEq

def Namespace.code : Namespace → U8
  | account => 0x01
  | balance => 0x02
  | supply => 0x03
  | issuer => 0x04
  | validator => 0x05
  | delegation => 0x06
  | params => 0x07
  | contract => 0x08
  | frozen => 0x09
  | «alias» => 0x0a
  | aliasSkeleton => 0x0b
  | aliasReverse => 0x0c
  | contact => 0x0d
  | attestor => 0x0e
  | unbonding => 0x0f
  | bondIndex => 0x10
  | council => 0x11
  | proposal => 0x12
  | proposalIndex => 0x13

theorem Namespace.code_injective {ns ns' : Namespace} (h : ns.code = ns'.code) : ns = ns' := by
  cases ns <;> cases ns' <;> first | rfl | cases h

/-- The bytes that `StoreKey::new` puts together. -/
def StoreKey.new (ns : Namespace) (parts : List Bytes) : Bytes := ns.code :: parts.flatMap encodeBytes

/-! ## Parts -/

theorem encodeBytes_append_inj {x y r r' : Bytes} (hx : x.length < 2 ^ 32) (hy : y.length < 2 ^ 32)
    (h : encodeBytes x ++ r = encodeBytes y ++ r') : x = y ∧ r = r' := by
  rw [encodeBytes, encodeBytes, List.append_assoc, List.append_assoc] at h
  obtain ⟨hlen, hrest⟩ := List.append_inj h ((length_leBytes 4 _).trans (length_leBytes 4 _).symm)
  have hlength : x.length = y.length := by
    rw [← fromLe_leBytes (w := 4) hx, ← fromLe_leBytes (w := 4) hy]
    exact congrArg fromLe hlen
  exact List.append_inj hrest hlength

theorem encodeBytes_ne_nil (x : Bytes) : encodeBytes x ≠ [] := by
  intro h
  have hlen := congrArg List.length h
  rw [encodeBytes, List.length_append, encodeLen, length_leBytes, List.length_nil] at hlen
  omega

theorem flatMap_encodeBytes_inj {parts parts' : List Bytes} (hparts : ∀ p ∈ parts, p.length < 2 ^ 32)
    (hparts' : ∀ p ∈ parts', p.length < 2 ^ 32) (h : parts.flatMap encodeBytes = parts'.flatMap encodeBytes) :
    parts = parts' := by
  induction parts generalizing parts' with
  | nil =>
    cases parts' with
    | nil => rfl
    | cons q qs => exact absurd (List.append_eq_nil_iff.1 h.symm).1 (encodeBytes_ne_nil q)
  | cons p ps ih =>
    cases parts' with
    | nil => exact absurd (List.append_eq_nil_iff.1 h).1 (encodeBytes_ne_nil p)
    | cons q qs =>
      obtain ⟨rfl, hrest⟩ := encodeBytes_append_inj (hparts p List.mem_cons_self) (hparts' q List.mem_cons_self) h
      rw [ih (fun r hr => hparts r (List.mem_cons_of_mem _ hr)) (fun r hr => hparts' r (List.mem_cons_of_mem _ hr)) hrest]

/-! ## Keys -/

@[simp] theorem Address.asBytes_inj {a a' : Address} : a.asBytes = a'.asBytes ↔ a = a' := by
  have hread : ∀ a : Address, Reads (decodeBe 20 (2 ^ 160)) a.asBytes a := decodeBe_reads (by decide)
  exact ⟨fun h => (hread a).unique (h ▸ hread a'), congrArg _⟩

@[simp] theorem Hash32.asBytes_inj {x y : Hash32} : x.asBytes = y.asBytes ↔ x = y := ⟨asBytes_injective, congrArg _⟩

@[simp] theorem Denom.asStr_inj {d d' : Denom} : d.asStr = d'.asStr ↔ d = d' := by
  cases d
  cases d'
  simp

@[simp] theorem leBytes_eight_inj {n m : U64} : leBytes 8 n.val = leBytes 8 m.val ↔ n = m := by
  refine ⟨fun h => Fin.ext ?_, fun h => h ▸ rfl⟩
  rw [← fromLe_leBytes (w := 8) n.isLt, h, fromLe_leBytes (w := 8) m.isLt]

namespace StoreKey

variable {k k' : StoreKey}

/-- The namespace a constructor names. -/
def ns : StoreKey → Namespace
  | account _ => .account
  | balance .. => .balance
  | supply _ => .supply
  | issuer _ => .issuer
  | frozen .. => .frozen
  | aliasName _ => .alias
  | aliasSkeleton _ => .aliasSkeleton
  | aliasReverse _ => .aliasReverse
  | contact _ => .contact
  | attestor _ => .attestor
  | bond _ => .validator
  | unbonding _ => .unbonding
  | bondIndex => .bondIndex
  | params => .params
  | council => .council
  | proposal _ => .proposal
  | proposalIndex => .proposalIndex

theorem asBytes_eq_new (k : StoreKey) : k.asBytes = new k.ns k.parts.2 := by
  cases k <;> rfl

theorem new_inj {ns ns' : Namespace} {parts parts' : List Bytes} (hparts : ∀ p ∈ parts, p.length < 2 ^ 32)
    (hparts' : ∀ p ∈ parts', p.length < 2 ^ 32) (h : new ns parts = new ns' parts') : ns = ns' ∧ parts = parts' := by
  obtain ⟨hcode, hrest⟩ := List.cons.inj h
  exact ⟨Namespace.code_injective hcode, flatMap_encodeBytes_inj hparts hparts' hrest⟩

theorem parts_injective (hns : k.ns = k'.ns) (h : k.parts.2 = k'.parts.2) : k = k' := by
  cases k <;> cases k' <;> cases hns <;> simp_all [parts]

/-- The bytes of every part can be counted in a word. -/
def Fits (k : StoreKey) : Prop := ∀ p ∈ k.parts.2, p.length < 2 ^ 32

end StoreKey

/-- Bytes determine the constructor of a key with its arguments, and a beginning of them the namespace. -/
theorem store_keys_apart :
    (∀ k k' : StoreKey, k.Fits → k'.Fits → k.asBytes = k'.asBytes → k = k') ∧
    (∀ ns ns' parts parts', (∀ p ∈ parts ++ parts', p.length < 2 ^ 32) →
      StoreKey.new ns parts = StoreKey.new ns' parts' → ns = ns' ∧ parts = parts') ∧
    (∀ (k : StoreKey) ns parts, k.Fits → (∀ p ∈ parts, p.length < 2 ^ 32) →
      k.asBytes = StoreKey.new ns parts → ns = k.ns ∧ parts = k.parts.2) ∧
    (∀ ns ns' parts parts', StoreKey.new ns parts <+: StoreKey.new ns' parts' → ns = ns') ∧
    ∀ k : StoreKey, k.asBytes = StoreKey.new k.ns k.parts.2 := by
  refine ⟨fun k k' hk hk' h => ?_, fun ns ns' parts parts' hparts h => ?_, fun k ns parts hk hparts h => ?_,
    fun ns ns' parts parts' h => ?_, StoreKey.asBytes_eq_new⟩
  · rw [k.asBytes_eq_new, k'.asBytes_eq_new] at h
    obtain ⟨hns, hparts⟩ := StoreKey.new_inj hk hk' h
    exact StoreKey.parts_injective hns hparts
  · obtain ⟨hleft, hright⟩ := List.forall_mem_append.1 hparts
    exact StoreKey.new_inj hleft hright h
  · rw [k.asBytes_eq_new] at h
    exact StoreKey.new_inj hparts hk h.symm
  · exact Namespace.code_injective (List.cons_prefix_cons.1 h).1

end AfroLink
