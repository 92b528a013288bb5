import AccScript.Code.Compiled

/-!
# Records of units

The form in which a unit is handed to the backend: operands are sorted by kind, strings are
spelled out, and labels go by their names.
-/

namespace AccScript

inductive Immediate where
  | int (value : Int)
  | float (value : Binary64)
deriving DecidableEq, Repr

def Immediate.toJson : Immediate → Json
  | .int value => .int value
  | .float value => .double value

/-- The record of an instruction; a label has no opcode. -/
structure InstructionRecord where
  opcode : Option Nat := none
  registers : List Nat := []
  strings : List String := []
  immediates : List Immediate := []
  label : Option String := none
  placement : Placement
deriving DecidableEq, Repr

namespace Placement

def toJson (placement : Placement) : Json :=
  .object [("l", .int placement.line), ("c", .int placement.column),
    ("bl", .nat placement.boundLeft), ("br", .nat placement.boundRight)]

end Placement

namespace InstructionRecord

/-- Adds an operand at the end of its kind. -/
def addOperand (strings : List String) (record : InstructionRecord) :
    Operand → Except CompileError InstructionRecord
  | .register r => .ok { record with registers := record.registers ++ [r.index] }
  | .int value => .ok { record with immediates := record.immediates ++ [.int value] }
  | .float value => .ok { record with immediates := record.immediates ++ [.float value] }
  | .label l => .ok { record with label := some l.render }
  | .string id =>
      match strings[id.index]? with
      | some s => .ok { record with strings := record.strings ++ [s] }
      | none => .error (.internal ("string id " ++ toString id.index ++ " out of range"))

def ofEmitted (strings : List String) (e : Emitted) : Except CompileError InstructionRecord :=
  match e.instruction with
  | .label l => .ok { label := some l.render, placement := e.placement }
  | instruction =>
      instruction.operands.foldlM (addOperand strings)
        { opcode := some instruction.opcode, placement := e.placement }

def toJson (record : InstructionRecord) : Json :=
  .object <|
    (record.opcode.toList.map fun opcode => ("o", .nat opcode)) ++
    [("r", .array (record.registers.map .nat)), ("id", .strings record.strings),
      ("im", .array (record.immediates.map Immediate.toJson))] ++
    (record.label.toList.map fun label => ("l", .string label)) ++
    [("d", record.placement.toJson)]

end InstructionRecord

/-- One protected range with its handler. -/
structure CatchRecord where
  tryBegin : String
  tryEnd : String
  handler : String
deriving DecidableEq, Repr

namespace CatchRecord

def ofTable (table : CatchTable) : List CatchRecord :=
  table.ranges.map fun range => ⟨range.1.render, range.2.render, table.handler.render⟩

def toJson (record : CatchRecord) : Json :=
  .object [("tb_lab", .string record.tryBegin), ("te_lab", .string record.tryEnd),
    ("cb_lab", .string record.handler)]

end CatchRecord

structure UnitRecord where
  name : String
  parameterCount : Nat
  registerCount : Nat
  instructions : List InstructionRecord
  catches : List CatchRecord
  variableRows : List VariableRow
deriving DecidableEq, Repr

namespace UnitRecord

def ofUnit (strings : List String) (u : CompiledUnit) : Except CompileError UnitRecord := do
  let instructions ← u.code.mapM (InstructionRecord.ofEmitted strings)
  return {
    name := u.name
    parameterCount := u.parameterCount
    registerCount := u.registerCount
    instructions
    catches := u.catchTables.flatMap CatchRecord.ofTable
    variableRows := u.variableRows }

def toJson (record : UnitRecord) : Json :=
  .object [
    ("n", .string record.name),
    ("p", .nat record.parameterCount),
    ("r", .nat record.registerCount),
    ("i", .array (record.instructions.map InstructionRecord.toJson)),
    ("ca_tab", .array (record.catches.map CatchRecord.toJson)),
    ("v", .array (record.variableRows.map VariableRow.toJson))]

end UnitRecord

end AccScript
