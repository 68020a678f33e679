import AfroLink.Executor.Lemmas.Keys
import AfroLink.Executor.Theorems.Accounts

/-!
# Retired seeds

A master key that is disabled signs nothing any more, unless the account's own signer list names it.
-/

namespace AfroLink

theorem retired_seed_signs_nothing_iff [Crypto] [StateRoot] (g : Genesis) (limits : GenesisLimits) (b : Block)
    (start : Store) (hgenesis : Runs (g.apply limits) .empty b start) (e : Executor)
    (blocks : List (BlockContext × List Transaction)) :
    (∀ a key, ((executeBlocks e blocks start).record a).flags.isSet .masterKeyDisabled = true →
      Address.fromPublicKey key = a →
      (((executeBlocks e blocks start).record a).authorises [key] = false ↔
        ∀ list weight, ((executeBlocks e blocks start).record a).signers = some list →
          list.weightOf key = some weight → weight < list.quorum) ∧
      ((∀ keys : List PublicKey, (∀ x ∈ keys, x = key) →
          ((executeBlocks e blocks start).record a).authorises keys = false) ↔
        ∀ list, ((executeBlocks e blocks start).record a).signers = some list → list.weightOf key = none)) ∧
    ((∀ ctx sender list, .message ctx sender (.setSignerList (some list)) ∈ runEvents e blocks start →
        ∀ key weight, Address.fromPublicKey key = sender → list.weightOf key = some weight → weight < list.quorum) →
      ∀ a key, ((executeBlocks e blocks start).record a).flags.isSet .masterKeyDisabled = true →
        Address.fromPublicKey key = a → ((executeBlocks e blocks start).record a).authorises [key] = false) ∧
    ((∀ ctx sender list, .message ctx sender (.setSignerList (some list)) ∈ runEvents e blocks start →
        ∀ key, Address.fromPublicKey key = sender → list.weightOf key = none) →
      ∀ a key (keys : List PublicKey), ((executeBlocks e blocks start).record a).flags.isSet .masterKeyDisabled = true →
        Address.fromPublicKey key = a → (∀ x ∈ keys, x = key) →
        ((executeBlocks e blocks start).record a).authorises keys = false) := by
  have hrun : ∀ Q : Address → SignerList → Prop,
      (∀ ctx sender list, .message ctx sender (.setSignerList (some list)) ∈ runEvents e blocks start → Q sender list) →
      ∀ a, ((executeBlocks e blocks start).record a).Rotates a ∧ ((executeBlocks e blocks start).record a).Lists Q a := by
    intro Q hQ
    refine (rotates_keyRule Q).trace (executeBlocks_trace e blocks start) (fun ev hev => rotates_allows ?_) ?_
    · rintro ctx sender list rfl
      exact hQ ctx sender list hev
    · intro a
      rw [Genesis.install_records (Genesis.install_of_apply hgenesis)]
      exact (rotates_keyRule Q).fresh a
  have hrotates : ∀ a, ((executeBlocks e blocks start).record a).Rotates a := fun a =>
    (hrun (fun _ _ => True) (fun _ _ _ _ => trivial) a).1
  refine ⟨fun a key hdisabled hkey => ⟨?_, ?_⟩, fun hlight a key hdisabled hkey => ?_,
    fun hunlisted a key keys hdisabled hkey hkeys => ?_⟩
  · exact (hrotates a).not_authorises_single_iff hdisabled hkey
  · exact (hrotates a).not_authorises_iff hdisabled hkey
  · refine ((hrotates a).not_authorises_single_iff hdisabled hkey).2 fun list weight hlist hweight => ?_
    exact (hrun (fun sender l => ∀ key weight, Address.fromPublicKey key = sender → l.weightOf key = some weight →
      weight < l.quorum) hlight a).2 list hlist key weight hkey hweight
  · refine ((hrotates a).not_authorises_iff hdisabled hkey).2 (fun list hlist => ?_) keys hkeys
    exact (hrun (fun sender l => ∀ key, Address.fromPublicKey key = sender → l.weightOf key = none)
      hunlisted a).2 list hlist key hkey

namespace Tagged

open Sample (chain key opened)

def rotation (messages : List Message) : Transaction :=
  TxBody.sign
    { chainId := chain, sender := addressOf 1, nonce := 0, validUntil := 10
      fee := { amount := 10, denom := Denom.native, payer := none }, messages, memo := "" } (key 1)

def rotating : List (BlockContext × List Transaction) :=
  [(⟨1, 5⟩, [rotation [.setRegularKey (some (key 2).publicKey), .setAccountFlag .masterKeyDisabled true]])]

theorem retired_seed_signs_nothing_rotating :
    ((executeBlocks ⟨chain⟩ rotating (opened holders)).record (addressOf 1)).flags.isSet .masterKeyDisabled = true ∧
    ((executeBlocks ⟨chain⟩ rotating (opened holders)).record (addressOf 1)).authorises [(key 1).publicKey] = false := by
  obtain ⟨hdisabled, hlist⟩ :
      ((executeBlocks ⟨chain⟩ rotating (opened holders)).record (addressOf 1)).flags.isSet .masterKeyDisabled = true ∧
      ((executeBlocks ⟨chain⟩ rotating (opened holders)).record (addressOf 1)).signers = none := by
    decide +kernel
  obtain ⟨b, hgenesis⟩ := holders_genesis
  refine ⟨hdisabled, (((retired_seed_signs_nothing_iff _ _ b _ hgenesis ⟨chain⟩ rotating).1 (addressOf 1)
    (key 1).publicKey hdisabled rfl).1).2 ?_⟩
  rw [hlist]
  nofun

def ownList : SignerList := ⟨[⟨(key 1).publicKey, 1⟩], 1, by decide +kernel⟩

/-- Account 1 disables its master key and leaves it on the list. -/
def relisting : List (BlockContext × List Transaction) :=
  [(⟨1, 5⟩, [rotation [.setSignerList (some ownList), .setAccountFlag .masterKeyDisabled true]])]

theorem retired_seed_signs_by_list :
    (∃ b, Runs ((Sample.genesisOf holders).apply .devnet) .empty b (opened holders)) ∧
    ((executeBlocks ⟨chain⟩ relisting (opened holders)).record (addressOf 1)).flags.isSet .masterKeyDisabled = true ∧
    Address.fromPublicKey (key 1).publicKey = addressOf 1 ∧
    ((executeBlocks ⟨chain⟩ relisting (opened holders)).record (addressOf 1)).authorises [(key 1).publicKey] = true :=
  ⟨holders_genesis, by decide +kernel⟩

end Tagged

end AfroLink
