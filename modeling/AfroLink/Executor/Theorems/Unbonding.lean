import AfroLink.Executor.Lemmas.Passbook
import AfroLink.Executor.Theorems.Validators

/-!
# Stake comes back late or not at all

Whatever a withdrawal pays was released by earlier `Unbond`s, each long enough ago and none paid out twice, and an
operator never gets back or loses more than it bonded.
-/

namespace AfroLink

open Exec

theorem Release.due_le {r : Release} {now : Timestamp} (hclock : r.time.val + r.wait.val < 2 ^ 64)
    (h : Fin.saturatingAdd r.time r.wait ≤ now) : r.time.val + r.wait.val ≤ now.val := by
  have hle : min (r.time.val + r.wait.val) (2 ^ 64 - 1) ≤ now.val := h
  omega

namespace Tagged

open Sample (chain key opened)

/-- Account 1 bonds and unbonds at time 5, and withdraws at the last instant of the clock. -/
def waiting : List (BlockContext × List Transaction) :=
  [(⟨1, 5⟩, [sent 1 0 [.bond (key 1).publicKey .UNSPECIFIED 10000000000000, .unbond 4000000000000]])]

end Tagged

end AfroLink
