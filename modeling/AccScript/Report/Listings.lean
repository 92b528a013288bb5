import AccScript.Analysis
import AccScript.Assembler.Basic
import AccScript.Report.Scopes
import AccScript.Stream.Transmission

/-!
# Reports of code

The JSON form of instructions, units and compiled programs, with the code as a listing.
-/

namespace AccScript

def Operand.kindName : Operand → String
  | .register _ => "register"
  | .int _ => "int"
  | .float _ => "float"
  | .label _ => "label"
  | .string _ => "string"

def Operand.toJson (o : Operand) : Json :=
  .array [.string o.kindName, .string o.render, .nat o.encodedSize]

def Instruction.report (i : Instruction) : Except Failure Json :=
  if i.isEncodable then
    .ok <| .object [("mnemonic", .string i.mnemonic), ("opcode", .nat i.opcode),
      ("size", .nat i.encodedSize), ("text", .string i.render),
      ("operands", .array (i.operands.map Operand.toJson)), ("is_label", .bool i.isLabel),
      ("terminator", .bool i.isTerminator), ("target", .nat? (i.target?.map Label.index)),
      ("registers", .nats (i.registers.map Register.index))]
  else .error .unmet

/-- Line, column and byte bounds. -/
def Emitted.placementJson (e : Emitted) : Json :=
  .array [.int e.placement.line, .int e.placement.column, .nat e.placement.boundLeft,
    .nat e.placement.boundRight]

def CatchTable.toJson (table : CatchTable) : Json :=
  .object [("handler", .nat table.handler.index),
    ("ranges", .array (table.ranges.map fun range =>
      .array [.nat range.1.index, .nat range.2.index]))]

def LiteralBuffer.toText (buffer : LiteralBuffer) : Json :=
  .string (toJson buffer).render

def LiteralBuffer.report (buffer : LiteralBuffer) (id : Nat) : Json :=
  .object [("id", .nat id), ("len", .nat buffer.length), ("empty", .bool buffer.isEmpty),
    ("tags", .nats (buffer.map Literal.tag)), ("json", buffer.toText)]

def CompiledUnit.toJson (u : CompiledUnit) : Json :=
  .object [("name", .string u.name), ("params", .nat u.parameterCount),
    ("regs", .nat u.registerCount), ("code", .strings u.listing),
    ("debug", .array (u.code.map Emitted.placementJson)),
    ("catch", .array (u.catchTables.map CatchTable.toJson)),
    ("vars", .array (u.variableRows.map VariableRow.toJson))]

def CompiledProgram.toJson (p : CompiledProgram) : Json :=
  .object [("functions", .array (p.units.map CompiledUnit.toJson)),
    ("strings", .strings p.strings), ("literals", .array (p.literals.map LiteralBuffer.toText)),
    ("module", (p.moduleRecord.map ModuleRecord.toJson).getD .null),
    ("main", .string? ((p.unit? mainUnitName).map CompiledUnit.name))]

namespace JumpTarget

def toJson (target : JumpTarget) : Json :=
  .array [.nat target.label.index, .strings target.names, .bool target.acceptsUnlabelled,
    .nat target.depth]

end JumpTarget

def Boundary.describe : Boundary → String
  | .breakTarget => "Break"
  | .continueTarget => "Continue"
  | .environment _ => "LeaveLexicalEnvironment"
  | .finalizer index => "ReturnToFinally(" ++ toString index ++ ")"
  | .region index => "TryRegion(" ++ toString index ++ ")"

/-- The finished unit of an assembler, placed as if it started at the origin of the source. -/
def Assembler.report (a : Assembler) : Except Failure Json := do
  let u ← a.finish
  let code ← Emitted.annotate ⟨0, 0⟩ a.debugMode u.code
  return .object [("regs", .nat u.registerCount),
    ("code", .strings (code.map fun e => e.instruction.render)),
    ("debug", .array (code.map Emitted.placementJson)),
    ("catch", .array (u.catchTables.map CatchTable.toJson)),
    ("locals", .array ((u.locals.mergeSort fun a b => a.1 ≤ b.1).map fun entry =>
      .array [.nat entry.1, .nat entry.2.index])),
    ("initialized", .nats (u.initialized.mergeSort fun a b => a ≤ b)),
    ("ranges", .array (u.scopeRanges.map fun range =>
      .array [.nat range.scope, .nat range.start, .nat range.stop]))]

end AccScript
