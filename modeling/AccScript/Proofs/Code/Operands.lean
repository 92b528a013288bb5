import AccScript.Code.Compiled

/-!
# What instructions name

Some operands are places in tables that the whole program shares: strings, and the buffers of
literals.
-/

namespace AccScript

/-- Different numbers are written differently. -/
theorem eq_of_toString {m n : Nat} (same : toString m = toString n) : m = n := by
  have digits := congrArg String.toList same
  simp only [Nat.toString_eq_repr, Nat.toList_repr] at digits
  rw [← Nat.ofDigitChars_ten_toDigits (n := m), digits, Nat.ofDigitChars_ten_toDigits]

def Operand.strings (operands : List Operand) : List StringId :=
  operands.filterMap fun
    | .string id => some id
    | _ => none

namespace Instruction

def strings (i : Instruction) : List StringId :=
  Operand.strings i.operands

def literal? : Instruction → Option Nat
  | .createArrayWithBuffer literal | .createObjectWithBuffer literal
  | .newLexEnvWithName _ literal | .defineClassWithBuffer _ literal _ _ => some literal
  | _ => none

end Instruction

/-- The strings that a unit names, in the order of its code. -/
def CompiledUnit.strings (u : CompiledUnit) : List StringId :=
  u.code.flatMap fun e => e.instruction.strings

end AccScript
