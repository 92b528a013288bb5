import AccScript.Number.Layout

/-!
# Operands

What an instruction can carry: registers, numbers, jump targets and strings of the program's
string table.
-/

namespace AccScript

/-- A virtual register of one function. Parameters come first, then locals and temporaries. -/
structure Register where
  index : Nat
deriving DecidableEq, Repr, Inhabited

/-- A jump target. No two functions of a program share one. -/
structure Label where
  index : Nat
deriving DecidableEq, Repr, Inhabited

/-- A place in the program's string table. -/
structure StringId where
  index : Nat
deriving DecidableEq, Repr, Inhabited

namespace Register

/-- Registers from 256 on take two bytes. -/
def isWide (r : Register) : Bool :=
  256 ≤ r.index

def render (r : Register) : String :=
  "v" ++ toString r.index

end Register

def Label.render (l : Label) : String :=
  "LABEL_" ++ toString l.index

inductive Operand where
  | register (r : Register)
  | int (value : Int)
  | float (value : Binary64)
  | label (l : Label)
  | string (id : StringId)
deriving DecidableEq, Repr

namespace Operand

/-- Size in bytes, the mark of wide registers apart. -/
def encodedSize : Operand → Nat
  | .register r => if r.isWide then 2 else 1
  | .int _ => 4
  | .float _ => 8
  | .label _ => 2
  | .string _ => 2

def totalSize : List Operand → Nat
  | [] => 0
  | o :: rest => o.encodedSize + totalSize rest

def render : Operand → String
  | .register r => r.render
  | .int value => toString value
  | .float value => NumberLayout.listing.render value
  | .label l => l.render
  | .string id => "str:" ++ toString id.index

/-- Numbers are encoded as signed 32-bit words. -/
def isEncodable : Operand → Bool
  | .int value => -0x80000000 ≤ value && value < 0x80000000
  | _ => true

def register? : Operand → Option Register
  | .register r => some r
  | _ => none

end Operand

end AccScript
