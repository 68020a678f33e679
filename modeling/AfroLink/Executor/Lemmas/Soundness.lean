import AfroLink.Executor.Lemmas.Accounts
import AfroLink.Executor.Lemmas.Events

/-!
# Records that can be read back

While every message stores records that fit, the store stays sound, nobody is told of corrupt state, and the
bookkeeping moves the records it finds on.
-/

namespace AfroLink

namespace Exec

variable {s s' : Store} {a b sender : Address} {pointer : TxPointer}

/-! ## Bookkeeping on a sound store -/

variable [Crypto] {e : Executor} {ctx : BlockContext} {t : Transaction}

/-- The store with the messages of a transaction applied, all or none. -/
def afterMessages (ctx : BlockContext) (t : Transaction) (s : Store) : Store :=
  match applyMessages ctx t.body.sender t.body.messages s with
  | .ok _ sandbox => sandbox
  | .error _ _ => s

end Exec

section

variable [Crypto] [StateRoot]

end

end AfroLink
