/-!
# Source positions
-/

namespace AccScript

/-- Where a node starts. -/
structure Position where
  line : Nat
  column : Nat
deriving DecidableEq, Repr, Inhabited

end AccScript
