/-!
# Operators
-/

namespace AccScript

/-- Operators on two evaluated operands. -/
inductive BinaryOp where
  | add
  | sub
  | mul
  | div
  | mod
  | exp
  | shiftLeft
  | shiftRight
  | unsignedShiftRight
  | bitAnd
  | bitOr
  | bitXor
  | eq
  | notEq
  | strictEq
  | strictNotEq
  | less
  | lessEq
  | greater
  | greaterEq
  | isIn
  | instanceOf
deriving DecidableEq, Repr

/-- Whether the result is always a boolean. -/
def BinaryOp.yieldsBoolean : BinaryOp → Bool
  | .eq | .notEq | .strictEq | .strictNotEq | .less | .lessEq | .greater | .greaterEq
  | .isIn | .instanceOf => true
  | _ => false

inductive UnaryOp where
  | minus
  | plus
  | not
  | bitNot
  | typeOf
  | void
  | delete
deriving DecidableEq, Repr

inductive UpdateOp where
  | increment
  | decrement
deriving DecidableEq, Repr

/-- Operators that evaluate their right operand only if they need it. -/
inductive LogicalOp where
  | and
  | or
  | nullish
deriving DecidableEq, Repr

end AccScript
