import AfroLink.State.Lemmas.StateProofs
import AfroLink.Crypto.Sample

/-!
# The state tree stands for the state

Whatever operations built it, the tree is a function of the map they leave, and its proofs tell what is in that map.
-/

namespace AfroLink

namespace SparseMerkleTree

open Smt

/-- The proof of a key is accepted for what the tree has under it, and no proof is accepted for anything else. -/
theorem state_proofs_complete_and_sound [Crypto] (ops : List Op) (key : Bytes) :
    ((build ops).prove key).verify (build ops).root key ((build ops).get key) = true ∧
      ∀ (p : Proof) (claim : Option Bytes), HashesApart ((build ops).link.inputs ++ p.inputs key) →
        p.verify (build ops).root key claim = true → claim = (build ops).get key :=
  ⟨verify_prove (wellFormed_build ops) key, fun _ _ hapart h => claim_of_verify hapart h⟩

namespace Sample

open AfroLink.Sample

def ops : List Op := [.insert [1] [10], .insert [2] [20], .insert [3] [30], .remove [1]]

theorem state_proofs_complete_and_sound_ops :
    ((build ops).prove [1]).verify (build ops).root [1] ((build ops).get [1]) = true ∧ none = (build ops).get [1] ∧
      some [20] = (build ops).get [2] := by
  obtain ⟨hcomplete, hsound⟩ := state_proofs_complete_and_sound ops [1]
  exact ⟨hcomplete, hsound ((build ops).prove [1]) none (by decide +kernel) (by decide +kernel),
    (state_proofs_complete_and_sound ops [2]).2 ((build ops).prove [2]) (some [20]) (by decide +kernel)
      (by decide +kernel)⟩

end Sample

theorem mapOf_of_entries_eq [Crypto] {ops ops' : List Op} {keys : List Bytes} (hkeys : KeysApart keys)
    (hops : ops.map Op.key ⊆ keys) (hops' : ops'.map Op.key ⊆ keys)
    (hentries : (build ops).entries = (build ops').entries) {key value : Bytes} (h : mapOf ops key = some value) :
    mapOf ops' key = some value := by
  have hmem : (keyHash key, value) ∈ (build ops).entries := (mem_entries_build (hkeys.mono hops)).2 ⟨key, h, rfl⟩
  rw [hentries] at hmem
  obtain ⟨key', h', heq⟩ := (mem_entries_build (hkeys.mono hops')).1 hmem
  have hkey := hkeys key (hops (mem_of_mapOf h)) key' (hops' (mem_of_mapOf h')) heq
  exact hkey ▸ h'

theorem mapOf_eq_of_root_eq [Crypto] {ops ops' : List Op} (hkeys : KeysApart (ops.map Op.key ++ ops'.map Op.key))
    (hapart : HashesApart ((build ops).link.inputs ++ (build ops').link.inputs))
    (h : (build ops).root = (build ops').root) : mapOf ops = mapOf ops' := by
  have hentries : (build ops).entries = (build ops').entries := by
    rw [entries_eq, entries_eq, Link.eq_of_hash_eq hapart h]
  have hleft : ops.map Op.key ⊆ ops.map Op.key ++ ops'.map Op.key := List.subset_append_left _ _
  have hright : ops'.map Op.key ⊆ ops.map Op.key ++ ops'.map Op.key := List.subset_append_right _ _
  funext key
  exact Option.ext fun value => ⟨mapOf_of_entries_eq hkeys hleft hright hentries,
    mapOf_of_entries_eq hkeys hright hleft hentries.symm⟩

/-- Operations that leave the same map leave trees with the same root, count and entries; those that leave different
maps leave different roots; and looking a key up is looking it up in the map. -/
theorem root_depends_only_on_state [Crypto] (ops ops' : List Op)
    (hkeys : KeysApart (ops.map Op.key ++ ops'.map Op.key)) :
    (mapOf ops = mapOf ops' → (build ops).root = (build ops').root ∧ (build ops).len = (build ops').len ∧
      (build ops).entries = (build ops').entries) ∧
    (∀ key, KeysApart (key :: ops.map Op.key) → (build ops).get key = mapOf ops key) ∧
    (HashesApart ((build ops).link.inputs ++ (build ops').link.inputs) → mapOf ops ≠ mapOf ops' →
      (build ops).root ≠ (build ops').root) := by
  refine ⟨fun hmap => ?_, fun _ => get_build, fun hapart hne h => hne (mapOf_eq_of_root_eq hkeys hapart h)⟩
  have heq := build_eq (hkeys.mono (List.subset_append_left _ _)) (hkeys.mono (List.subset_append_right _ _)) hmap
  rw [heq]
  exact ⟨rfl, rfl, rfl⟩

namespace Sample

open AfroLink.Sample

def reordered : List Op := [.insert [3] [31], .insert [2] [20], .remove [4], .insert [3] [30]]
def altered : List Op := [.insert [3] [31], .insert [2] [20]]

theorem mapOf_reordered : mapOf ops = mapOf reordered := by
  funext key
  simp only [mapOf, ops, reordered, List.foldl, Op.key, Op.value, Function.update_apply]
  split_ifs <;> simp_all

theorem root_depends_only_on_state_reordered :
    ((build ops).root = (build reordered).root ∧ (build ops).len = (build reordered).len ∧
      (build ops).entries = (build reordered).entries) ∧
    (build ops).get [3] = mapOf ops [3] ∧ (build ops).root ≠ (build altered).root :=
  ⟨(root_depends_only_on_state ops reordered (by decide +kernel)).1 mapOf_reordered,
    (root_depends_only_on_state ops reordered (by decide +kernel)).2.1 [3] (by decide +kernel),
    (root_depends_only_on_state ops altered (by decide +kernel)).2.2 (by decide +kernel)
      fun h => absurd (congrFun h [3]) (by decide +kernel)⟩

end Sample

end SparseMerkleTree

end AfroLink
