import AfroLink.Consensus.Theorems
import AfroLink.Executor.Theorems.Money
import AfroLink.Executor.Lemmas.Genesis

/-!
# Nonces and keys

From genesis on a nonce counts the charged transactions of its account, so that none is charged twice; somebody
can sign for every account, and nobody but its holder changes who.
-/

namespace AfroLink

open Exec

/-! ## Nonces -/

theorem Exec.rejects_of_nonce_lt [Crypto] {e : Executor} {ctx : BlockContext} {t : Transaction} {s : Store}
    (h : t.body.nonce < (s.record t.body.sender).nonce) :
    (executeTx e ctx t s).1 = s ∧ rejects e ctx t s = true := by
  rcases executeTx_cases e ctx t s with ⟨err, hout, -, hrej⟩ | ⟨s₁, hc, -⟩
  · rw [hout]
    exact ⟨rfl, hrej⟩
  · exact absurd h (by rw [hc.nonce_eq]; exact lt_irrefl _)

theorem executeBlocks_no_replay [Crypto] [StateRoot] (happart : GroupAddressesApart) (g : Genesis)
    (limits : GenesisLimits) (b : Block) (start : Store) (hgenesis : Runs (g.apply limits) .empty b start)
    (e : Executor) (blocks : List (BlockContext × List Transaction)) (a : Address) :
    (∀ later, ((executeBlocks e blocks start).record a).nonce ≤
      ((executeBlocks e later (executeBlocks e blocks start)).record a).nonce) ∧
    (∀ ctx t, ((executeTx e ctx t (executeBlocks e blocks start)).1.record a).nonce =
      if a = t.body.sender ∧ rejects e ctx t (executeBlocks e blocks start) = false then
        ((executeBlocks e blocks start).record a).nonce.saturatingAdd 1
      else ((executeBlocks e blocks start).record a).nonce) ∧
    ∀ ctx t later ctx' t', t.body.sender = a → rejects e ctx t (executeBlocks e blocks start) = false →
      t.body.nonce < Fin.last _ → t'.body.sender = a → t'.body.nonce = t.body.nonce →
      (executeTx e ctx' t' (executeBlocks e later (executeTx e ctx t (executeBlocks e blocks start)).1)).1 =
        executeBlocks e later (executeTx e ctx t (executeBlocks e blocks start)).1 ∧
      rejects e ctx' t' (executeBlocks e later (executeTx e ctx t (executeBlocks e blocks start)).1) = true := by
  have hs : (executeBlocks e blocks start).Guarded := executeBlocks_guarded happart (Genesis.apply_guarded hgenesis)
  generalize executeBlocks e blocks start = s at hs
  refine ⟨fun later => executeBlocks_nonce_le happart hs a, fun ctx t => (executeTx_accounts _ _ _ happart hs).2.1 a, ?_⟩
  rintro ctx t later ctx' t' rfl hcharged hlast hsender hnonce
  refine rejects_of_nonce_lt ?_
  rw [hsender, hnonce]
  -- the nonce has passed with the first transaction, and only grows
  obtain ⟨hg, hafter, -⟩ := executeTx_accounts e ctx t happart hs
  refine lt_of_lt_of_le ?_ (executeBlocks_nonce_le happart hg t.body.sender)
  rcases executeTx_cases e ctx t s with ⟨err, -, -, hrej⟩ | ⟨s₁, hc, -⟩
  · simp [hrej] at hcharged
  · rw [hafter, hc.nonce_eq]
    simp only [hcharged, and_self, if_true]
    have := Fin.lt_def.1 hlast
    simp only [Fin.lt_def, Fin.saturatingAdd_val, Fin.val_last] at this ⊢
    simp
    omega

namespace Sample

def genesisOf (holders : List (Address × Amount)) : Genesis where
  chainId := chain
  genesisTime := 0
  validators := alone
  issuers := []
  attestors := []
  council := ⟨[⟨0, 1, .UNSPECIFIED⟩], 6667, by decide⟩
  params := { maxCouncilCountryShareBps := 10000 }
  allocations := holders.map fun h => ⟨h.1, .native, h.2⟩
  issuers_decode := by simp
  attestors_decode := by simp

def opened (holders : List (Address × Amount)) : Store :=
  match (genesisOf holders).install .devnet .empty with
  | .ok _ s => s
  | .error _ _ => .empty

def opens (holders : List (Address × Amount)) : Bool :=
  match (genesisOf holders).install .devnet .empty with
  | .ok _ _ => true
  | .error _ _ => false

/-- Holders whose genesis file opens a chain. -/
structure GenesisFile where
  holders : List (Address × Amount)
  valid : opens holders = true

theorem GenesisFile.installs (f : GenesisFile) :
    Runs ((genesisOf f.holders).install .devnet) .empty () (opened f.holders) := by
  have hvalid := f.valid
  unfold opens at hvalid
  unfold opened Runs
  split at hvalid
  · rename_i heq
    rw [heq]
  · cases hvalid

theorem checkSignatureList_singleton {doc : Bytes} {k : SecretKey} :
    Transaction.checkSignatureList doc [⟨k.publicKey, k.sign .txSignDoc doc⟩] = .ok () := by
  have hv := sign_verifies k .txSignDoc doc
  generalize k.sign .txSignDoc doc = sig at hv
  generalize k.publicKey = pk at hv
  simp [Transaction.checkSignatureList, hv]

def spin (nonce : U64) : Transaction := sent 1 nonce [.clearPrimaryAlias]

theorem spin_verifies (nonce : U64) : (spin nonce).verifyStateless chain 1 = .ok () := by
  refine verifyStateless_signed (b := (spin nonce).body) rfl rfl ?_ checkSignatureList_singleton
  show (1 : Height) ≤ 10
  decide

/-- Account 1 can pay for the rest of its nonces. -/
structure Ready (nonce : U64) (s : Store) : Prop where
  account : ∃ p, s (.account (addressOf 1)) =
    some (.value { Account.individual (addressOf 1) with nonce, lastTxn := p })
  purse : ∃ x : Amount, s (.balance (addressOf 1) .native) = some (.value x) ∧ x.val + 10 * nonce.val = 2 ^ 127
  till : ∃ x : Amount, s (.balance feeCollectorAddress .native) = some (.value x) ∧ x.val = 1 + 10 * nonce.val
  unfrozen : s (.frozen .native (addressOf 1)) = none ∧ s (.frozen .native feeCollectorAddress) = none

theorem holder_ne_collector : addressOf 1 ≠ feeCollectorAddress := by decide +kernel

variable {s : Store} {nonce : U64}

theorem Ready.checks (h : Ready nonce s) : Runs (checkTx ⟨chain⟩ ⟨1, 5⟩ (spin nonce)) s (addressOf 1) s := by
  obtain ⟨p, hp⟩ := h.account
  refine checkTx_unsponsored (t := spin nonce) (spin_verifies nonce) (Store.getDecoded_eq_some.2 ⟨hp, rfl⟩) ?_ rfl rfl rfl
  show (_ || _ : Bool) = true
  simp [Account.individual, Account.ofKind, spin, sent, TxBody.sign,
      Transaction.signingKeys, Account.masterKeyMaySign, AccountFlags.isSet, AccountFlags.NONE, addressOf]

theorem Ready.pays (h : Ready nonce s) :
    ∃ y z : Amount, y.val + 10 * (nonce.val + 1) = 2 ^ 127 ∧ z.val = 1 + 10 * (nonce.val + 1) ∧
      Runs (bankTransfer (addressOf 1) feeCollectorAddress .native 10) s ()
        ((s.withBalance (addressOf 1) .native y).withBalance feeCollectorAddress .native z) := by
  obtain ⟨x, hx, hxval⟩ := h.purse
  obtain ⟨w, hw, hwval⟩ := h.till
  have hn := nonce.isLt
  refine ⟨⟨x.val - 10, by omega⟩, ⟨w.val + 10, by omega⟩, by simp only; omega, by simp only; omega, ?_⟩
  refine bankTransfer_runs rfl h.unfrozen.1 h.unfrozen.2 holder_ne_collector hx hw ?_ ?_
  · exact Amount.checkedSub_eq_ok.2 ⟨show 10 ≤ x.val by omega, rfl⟩
  · exact Amount.checkedAdd_eq_ok.2 rfl

theorem Ready.step (h : Ready nonce s) : rejects ⟨chain⟩ ⟨1, 5⟩ (spin nonce) s = false ∧
      (∃ p, (executeTx ⟨chain⟩ ⟨1, 5⟩ (spin nonce) s).1 (.account (addressOf 1)) = some (.value
        { Account.individual (addressOf 1) with nonce := nonce.saturatingAdd 1, lastTxn := p })) ∧
      (nonce < Fin.last _ → Ready (nonce.saturatingAdd 1) (executeTx ⟨chain⟩ ⟨1, 5⟩ (spin nonce) s).1) := by
  obtain ⟨y, z, hy, hz, hpay⟩ := h.pays
  obtain ⟨p, hp⟩ := h.account
  obtain ⟨hrej, hout⟩ := executeTx_of_runs (t := spin nonce) h.checks hpay rfl
  have htouched : (spin nonce).touchedAddresses = [addressOf 1] := rfl
  -- everything but the account record is as the fee left it
  have hframe : ∀ k : StoreKey, k ≠ .account (addressOf 1) → k ≠ .aliasReverse (addressOf 1) →
      (executeTx ⟨chain⟩ ⟨1, 5⟩ (spin nonce) s).1 k =
        ((s.withBalance (addressOf 1) .native y).withBalance feeCollectorAddress .native z) k := by
    intro k hk hk'
    rw [hout, htouched, touchAll_of_not_mem (by simpa using hk)]
    exact (Store.set_of_ne hk).trans (Store.delete_of_ne hk')
  have haccount : (executeTx ⟨chain⟩ ⟨1, 5⟩ (spin nonce) s).1 (.account (addressOf 1)) = some (.value
      { Account.individual (addressOf 1) with
        nonce := nonce.saturatingAdd 1, lastTxn := some ⟨(spin nonce).id, 1⟩ }) := by
    have hne : StoreKey.account (addressOf 1) ≠ .aliasReverse (addressOf 1) := nofun
    have hcell : (((s.withBalance (addressOf 1) .native y).withBalance feeCollectorAddress .native z).delete
        (.aliasReverse (addressOf 1))) (.account (addressOf 1)) = s (.account (addressOf 1)) :=
      (Store.delete_of_ne hne).trans ((paid_of_runs hpay).frame (k := .account (addressOf 1)) rfl)
    have hread := readOrFresh_of_getDecoded (Store.getDecoded_eq_some.2 ⟨hcell.trans hp, rfl⟩)
    rw [hout, htouched, touchAll_of_mem (List.mem_singleton.2 rfl)]
    unfold bumpNonce
    rw [show (spin nonce).body.sender = addressOf 1 from rfl, hread, readOrFresh_set rfl]
    rfl
  refine ⟨hrej, ⟨_, haccount⟩, fun hlast => ?_⟩
  have hnext : (nonce.saturatingAdd 1).val = nonce.val + 1 := by
    have : nonce.val < 2 ^ 64 - 1 := Fin.lt_def.1 hlast
    show min (nonce.val + 1) (2 ^ 64 - 1) = _
    omega
  refine ⟨⟨_, haccount⟩, ⟨y, ?_, ?_⟩, ⟨z, ?_, ?_⟩, ?_, ?_⟩
  · refine (hframe (.balance (addressOf 1) .native) nofun nofun).trans ?_
    rw [Store.withBalance_apply _ (by simpa using holder_ne_collector)]
    exact Store.withBalance_self (by omega)
  · rw [hnext]
    exact hy
  · exact (hframe (.balance feeCollectorAddress .native) nofun nofun).trans (Store.withBalance_self (by omega))
  · rw [hnext]
    exact hz
  · exact (hframe (.frozen .native (addressOf 1)) nofun nofun).trans
      (((paid_of_runs hpay).frame rfl).trans h.unfrozen.1)
  · exact (hframe (.frozen .native feeCollectorAddress) nofun nofun).trans
      (((paid_of_runs hpay).frame rfl).trans h.unfrozen.2)

def wealthy : List (Address × Amount) := [(addressOf 1, 2 ^ 127), (feeCollectorAddress, 1)]

def wealthyFile : GenesisFile := ⟨wealthy, by decide +kernel⟩

theorem wealthy_genesis : ∃ b, Runs ((genesisOf wealthy).apply .devnet) .empty b (opened wealthy) :=
  Genesis.apply_of_install wealthyFile.installs

theorem wealthy_ready : Ready 0 (opened wealthy) := by
  obtain ⟨haccount, hpurse, htill, hunfrozen⟩ : opened wealthy (.account (addressOf 1)) =
        some (.value { Account.individual (addressOf 1) with nonce := 0, lastTxn := none }) ∧
      opened wealthy (.balance (addressOf 1) .native) = some (.value (2 ^ 127)) ∧
      opened wealthy (.balance feeCollectorAddress .native) = some (.value 1) ∧
      opened wealthy (.frozen .native (addressOf 1)) = none ∧
      opened wealthy (.frozen .native feeCollectorAddress) = none := by
    decide +kernel
  exact ⟨⟨none, haccount⟩, ⟨2 ^ 127, hpurse, by decide +kernel⟩, ⟨1, htill, rfl⟩, hunfrozen⟩

def spinning : ℕ → List (BlockContext × List Transaction)
  | 0 => []
  | n + 1 => spinning n ++ [(⟨1, 5⟩, [spin (Fin.ofNat _ n)])]

theorem spinning_ready (n : ℕ) (hn : n < 2 ^ 64) :
    Ready ⟨n, hn⟩ (executeBlocks ⟨chain⟩ (spinning n) (opened wealthy)) := by
  induction n with
  | zero => exact wealthy_ready
  | succ n ih =>
    have hnonce : (Fin.ofNat (2 ^ 64) n : U64) = ⟨n, by omega⟩ := Fin.ext (Nat.mod_eq_of_lt (by omega))
    have hnext : (⟨n, by omega⟩ : U64).saturatingAdd 1 = ⟨n + 1, hn⟩ := by
      refine Fin.ext ?_
      show min (n + 1) (2 ^ 64 - 1) = n + 1
      omega
    have hstep := (ih (by omega)).step.2.2 (Fin.lt_def.2 (show n < 2 ^ 64 - 1 by omega))
    rw [hnext] at hstep
    rw [spinning, executeBlocks_append, executeBlocks_singleton, hnonce]
    exact hstep

/-- After `2 ^ 64 - 1` transactions the nonce is the last one. The next transaction is charged, and it stays. -/
theorem nonce_stays_at_the_last :
    (∃ b, Runs ((genesisOf wealthy).apply .devnet) .empty b (opened wealthy)) ∧
    ∃ blocks, (spin (Fin.last _)).body.sender = addressOf 1 ∧
      rejects ⟨chain⟩ ⟨1, 5⟩ (spin (Fin.last _)) (executeBlocks ⟨chain⟩ blocks (opened wealthy)) = false ∧
      ((executeTx ⟨chain⟩ ⟨1, 5⟩ (spin (Fin.last _)) (executeBlocks ⟨chain⟩ blocks (opened wealthy))).1.record
        (addressOf 1)).nonce.val ≠ ((executeBlocks ⟨chain⟩ blocks (opened wealthy)).record (addressOf 1)).nonce.val + 1 := by
  refine ⟨wealthy_genesis, spinning (2 ^ 64 - 1), rfl, ?_⟩
  have hready : Ready (Fin.last _) (executeBlocks ⟨chain⟩ (spinning (2 ^ 64 - 1)) (opened wealthy)) :=
    spinning_ready (2 ^ 64 - 1) (by decide)
  obtain ⟨hcharged, ⟨p, hafter⟩, -⟩ := hready.step
  obtain ⟨q, hbefore⟩ := hready.account
  refine ⟨hcharged, ?_⟩
  rw [Store.record_of_cell hafter, Store.record_of_cell hbefore]
  show ((Fin.last _ : U64).saturatingAdd 1).val ≠ (Fin.last _ : U64).val + 1
  decide

end Sample

namespace Tagged

open Sample (chain key opened)

theorem groupAddressesApart : GroupAddressesApart := by
  intro pk seed h
  have hkey := derived_head .address pk.toBytes
  have hgroup := derived_head .groupAddress seed
  rw [show Address.derived .address pk.toBytes = Address.derived .groupAddress seed from h, hgroup] at hkey
  cases hkey

def addressOf (n : ℕ) : Address := Address.fromPublicKey (key n).publicKey

def holders : List (Address × Amount) := [(addressOf 1, 1000)]

def payment : Transaction :=
  TxBody.sign
    { chainId := chain, sender := addressOf 1, nonce := 0, validUntil := 10
      fee := { amount := 10, denom := Denom.native, payer := none }
      messages := [.transfer (addressOf 2) Denom.native 100 none], memo := "" } (key 1)

scoped instance : StateRoot := ⟨fun _ => 0⟩

def holdersFile : Sample.GenesisFile := ⟨holders, by decide +kernel⟩

theorem holders_genesis : ∃ b, Runs ((Sample.genesisOf holders).apply .devnet) .empty b (opened holders) :=
  Genesis.apply_of_install holdersFile.installs

/-- A payment that has gone through is turned away the second time. -/
theorem executeBlocks_no_replay_payment :
    rejects ⟨chain⟩ ⟨2, 6⟩ payment (executeTx ⟨chain⟩ ⟨1, 5⟩ payment (opened holders)).1 = true := by
  obtain ⟨b, hgenesis⟩ := holders_genesis
  exact ((executeBlocks_no_replay groupAddressesApart _ _ b _ hgenesis ⟨chain⟩ [] (addressOf 1)).2.2 ⟨1, 5⟩ payment []
    ⟨2, 6⟩ payment rfl (by decide +kernel) (by decide) rfl rfl).2

end Tagged

/-! ## Keys -/

/-- The three ways in which somebody can sign for an account. -/
def Account.Satisfiable (r : Account) : Prop :=
  r.flags.masterKeyDisabled = false ∨ r.regularKey.isSome = true ∨
    ∃ list, r.signers = some list ∧ 0 < list.quorum ∧ (list.signers.map (·.key)).Nodup ∧
      list.quorum.val ≤ (list.signers.map fun s => s.weight.val).sum

theorem SignerList.reachable (l : SignerList) :
    0 < l.quorum ∧ (l.signers.map (·.key)).Nodup ∧ l.quorum.val ≤ (l.signers.map fun s => s.weight.val).sum := by
  have hwf := l.wf
  unfold violation at hwf
  dsimp only at hwf
  split_ifs at hwf with _ _ hsorted _ hquorum htotal
  refine ⟨Fin.pos_iff_ne_zero.2 hquorum, ?_, not_lt.1 htotal⟩
  have htrans : IsTrans Signer fun a b => a.key.bytes < b.key.bytes := ⟨fun _ _ _ => lt_trans⟩
  refine List.pairwise_map.2 (hsorted.pairwise.imp fun {a b} hlt heq => ?_)
  exact absurd (heq ▸ hlt) (lt_irrefl _)

theorem Account.satisfiable_of_usable {r : Account} (h : r.hasAUsableAuthority = true) : r.Satisfiable := by
  simp only [hasAUsableAuthority, Bool.or_eq_true, Bool.not_eq_true'] at h
  rcases h with (h | h) | h
  · exact .inl h
  · exact .inr (.inl h)
  · obtain ⟨list, hlist⟩ := Option.isSome_iff_exists.1 h
    exact .inr (.inr ⟨list, hlist, list.reachable⟩)

theorem executeBlocks_keys_guarded [Crypto] [StateRoot] (happart : GroupAddressesApart) (g : Genesis)
    (limits : GenesisLimits) (b : Block) (start : Store) (hgenesis : Runs (g.apply limits) .empty b start)
    (e : Executor) (blocks : List (BlockContext × List Transaction)) :
    (∀ a r, executeBlocks e blocks start (.account a) = some (.value r) → r.Satisfiable) ∧
    ∀ ctx t a, ¬ ((executeBlocks e blocks start).record a).SameKeys
        ((executeTx e ctx t (executeBlocks e blocks start)).1.record a) →
      a = t.body.sender ∧ ((executeBlocks e blocks start).record a).authorises t.signingKeys = true := by
  have hs : (executeBlocks e blocks start).Guarded := executeBlocks_guarded happart (Genesis.apply_guarded hgenesis)
  refine ⟨fun a r hr => ?_, fun ctx t a => (executeTx_accounts _ _ _ happart hs).2.2 a⟩
  have husable := (hs a).usable
  rw [Store.record_of_cell hr] at husable
  exact Account.satisfiable_of_usable husable

namespace Tagged

open Sample (chain key opened)

/-- Account 1 sets a regular key, and nobody else could have. -/
def rekeying : Transaction :=
  TxBody.sign
    { chainId := chain, sender := addressOf 1, nonce := 0, validUntil := 10
      fee := { amount := 10, denom := Denom.native, payer := none }
      messages := [.setRegularKey (some (key 2).publicKey)], memo := "" } (key 1)

theorem executeBlocks_keys_guarded_rekeying :
    ((opened holders).record (addressOf 1)).authorises rekeying.signingKeys = true := by
  obtain ⟨b, hgenesis⟩ := holders_genesis
  have hchanged : ((executeTx ⟨chain⟩ ⟨1, 5⟩ rekeying (opened holders)).1.record (addressOf 1)).regularKey ≠
      ((opened holders).record (addressOf 1)).regularKey := by
    decide +kernel
  exact ((executeBlocks_keys_guarded groupAddressesApart _ _ b _ hgenesis ⟨chain⟩ []).2 ⟨1, 5⟩ rekeying (addressOf 1)
    fun h => hchanged h.regularKey).2

end Tagged

end AfroLink
