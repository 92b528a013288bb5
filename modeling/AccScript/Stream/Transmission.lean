import AccScript.Options
import AccScript.Stream.Piece
import AccScript.Stream.Record

/-!
# Transmission of a program

The pieces of a compiled program, in the order that the backend expects. Options that have
no text and a unit that has no record cut the transmission short; the stream is terminated all the same.
-/

namespace AccScript

/-- The pieces that were sent, and what cut them short. -/
structure Transmission where
  pieces : List Piece
  failure : Option CompileError := none

namespace Transmission

/-- The full text of the stream. -/
def text (t : Transmission) : String :=
  Stream.ofPieces t.pieces

/-- What follows the units. -/
def closing (p : CompiledProgram) : List Piece :=
  [⟨.strings, .strings p.strings⟩] ++
  (p.literals.map fun buffer => ⟨.literalBuffer, buffer.toJson⟩) ++
  (p.moduleRecord.toList.map fun record => ⟨.moduleRecord, record.toJson⟩)

/-- What comes before the units. -/
def opening (options : Options) : Except CompileError (List Piece) := do
  return [⟨.options, ← options.toJson⟩, ⟨.recordName, .string options.recordName⟩,
    ⟨.outputFileName, .string options.outputFileName⟩]

def ofUnits (strings : List String) (rest : List Piece) : List CompiledUnit → Transmission
  | [] => { pieces := rest }
  | u :: units =>
      match UnitRecord.ofUnit strings u with
      | .ok record =>
          let t := ofUnits strings rest units
          { t with pieces := ⟨.function, record.toJson⟩ :: t.pieces }
      | .error e => { pieces := [], failure := some e }

def ofProgram (p : CompiledProgram) (options : Options) : Transmission :=
  match opening options with
  | .ok front =>
      let t := ofUnits p.strings (closing p) p.units
      { t with pieces := front ++ t.pieces }
  | .error e => { pieces := [], failure := some e }

end Transmission

/-- Why no backend takes a program: either none is configured, or it cannot be started. -/
def Options.backendFailure (options : Options) : CompileError :=
  match options.backendPath with
  | none => .invalidOptions "no backend path configured"
  | some _ => .backendUnavailable

end AccScript
