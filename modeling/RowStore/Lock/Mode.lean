/-!
# Lock modes

A page is locked to be read or to be written. What a transaction wants to do with a page decides the mode.
-/

namespace RowStore

inductive LockMode where
  | shared
  | exclusive
deriving DecidableEq, Repr

/-- Holding `held` already satisfies a request for `wanted`. -/
def LockMode.covers (held wanted : LockMode) : Bool := held = .exclusive || wanted = .shared

inductive Access where
  | readOnly
  | readWrite
deriving DecidableEq, Repr

def Access.lockMode : Access → LockMode
  | .readOnly => .shared
  | .readWrite => .exclusive

end RowStore
