import AccScript.Code.Literal
import AccScript.Code.Placement
import AccScript.Code.VariableTable
import AccScript.Module.Record

/-!
# Compiled programs

The result of a compilation: one unit for each function and one for the program root, which share
a table of strings and a list of literals.
-/

namespace AccScript

/-- An exception handler and the ranges it protects. -/
structure CatchTable where
  handler : Label
  ranges : List (Label × Label)
deriving DecidableEq, Repr

structure CompiledUnit where
  name : String
  parameterCount : Nat
  registerCount : Nat
  code : List Emitted
  catchTables : List CatchTable
  /-- The variable table; empty outside of debug mode. -/
  variableRows : List VariableRow := []
deriving DecidableEq, Repr

namespace CompiledUnit

/-- The code as text, one line for each instruction. -/
def listing (u : CompiledUnit) : List String :=
  u.code.map fun e => e.instruction.render

end CompiledUnit

structure CompiledProgram where
  /-- Every unit comes before the one that defines it; the program root is last. -/
  units : List CompiledUnit
  strings : List String
  literals : List LiteralBuffer
  moduleRecord : Option ModuleRecord
deriving DecidableEq, Repr

namespace CompiledProgram

def unit? (p : CompiledProgram) (name : String) : Option CompiledUnit :=
  p.units.find? fun u => u.name = name

def string? (p : CompiledProgram) (id : StringId) : Option String :=
  p.strings[id.index]?

end CompiledProgram

end AccScript
