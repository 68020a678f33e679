import AfroLink.Executor.Theorems.Accounts
import AfroLink.Executor.Lemmas.Soundness

/-!
# Records read back as they were written

From genesis on every record can be read back, as long as no message stores one beyond what its decoder accepts. A
loan whose total is no amount is such a record, and the bookkeeping puts a fresh individual in place of the group.
-/

namespace AfroLink

open Exec

namespace Sample

def lenders : List (Address × Amount) := [(addressOf 1, 2 ^ 127 + 1000)]

def lendersFile : GenesisFile := ⟨lenders, by decide +kernel⟩

theorem lenders_genesis : ∃ b, Runs ((genesisOf lenders).apply .devnet) .empty b (opened lenders) :=
  Genesis.apply_of_install lendersFile.installs

def lendingRules : ShareRules where
  minShares := 1
  maxShares := 10
  cyclesPerRound := 1
  serviceChargeBps := 10000
  coverBps := 10000
  loanTermCycles := 1
  lateFineBps := 0
  requiredGuarantors := 0
  socialContribution := 0

def lendingGroup : Address := Address.derived .groupAddress ((addressOf 1).asBytes ++ leBytes 8 0)

/-- Account 1 founds a group with account 2, buys eight shares of `2 ^ 124` and asks for all of it, at a service charge
of the whole principal. -/
def founding : Transaction :=
  sent 1 0 [
    .createGroup "chama" [⟨addressOf 1, .treasurer⟩, ⟨addressOf 2, .member⟩] ⟨2 ^ 124, .native, 10⟩
      (.accumulate lendingRules) ⟨1, 2⟩,
    .buyShares lendingGroup 8,
    .proposeGroupAction lendingGroup (addressOf 1) (.loan (2 ^ 127) [])]

def approving : Transaction := sent 1 1 [.approveGroupAction lendingGroup]

def founded : Store := (executeTx ⟨chain⟩ ⟨1, 5⟩ founding (opened lenders)).1

end Sample

end AfroLink
