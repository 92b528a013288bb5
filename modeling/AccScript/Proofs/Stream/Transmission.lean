import AccScript.Proofs.Code.Operands
import AccScript.Proofs.Stream.Frames
import Mathlib.Data.List.Forall2

/-!
# What is sent of a program

Only one thing can cut a transmission short: a string operand that is not in the table of strings.
The unit that holds it is not sent at all, since its record is complete before it is framed.

`sends_prefix` puts this together with what a writer does at its end.
-/

namespace AccScript

namespace StringId

variable {strings : List String}

def isMissing (strings : List String) (id : StringId) : Bool :=
  strings.length ≤ id.index

/-- What a writer makes of a string that is not in the table. -/
def failure (id : StringId) : CompileError :=
  .internal ("string id " ++ toString id.index ++ " out of range")

theorem getElem?_eq_none {id : StringId} (missing : id.isMissing strings) :
    strings[id.index]? = none := by
  rw [List.getElem?_eq_none_iff]
  simpa [isMissing] using missing

theorem exists_getElem? {id : StringId} (present : ¬ id.isMissing strings) :
    ∃ s, strings[id.index]? = some s := by
  have bound : id.index < strings.length := by simpa [isMissing] using present
  exact ⟨_, List.getElem?_eq_getElem bound⟩

end StringId

/-! ## Records -/

section Records

variable {strings : List String}

/-- What a step of a writer makes of some strings: it fails at the first one that is missing, and
yields a value with the given property if there is none. -/
def Spells {α : Type} (strings : List String) (ids : List StringId)
    (step : Except CompileError α) (Q : α → Prop) : Prop :=
  (ids.find? (StringId.isMissing strings) = none ∧ ∃ a, step = .ok a ∧ Q a) ∨
    ∃ id, ids.find? (StringId.isMissing strings) = some id ∧ step = .error id.failure

namespace Spells

variable {α β : Type} {ids ids' : List StringId} {step : Except CompileError α} {Q : α → Prop}

theorem bind {k : α → Except CompileError β} {R : β → Prop}
    (h : Spells strings ids step Q) (next : ∀ a, Q a → Spells strings ids' (k a) R) :
    Spells strings (ids ++ ids') (step >>= k) R := by
  rcases h with ⟨present, a, rfl, q⟩ | ⟨id, missing, rfl⟩
  · rcases next a q with ⟨present', b, eq, r⟩ | ⟨id, missing, eq⟩
    · exact .inl ⟨by rw [List.find?_append, present, present']; rfl, b, eq, r⟩
    · exact .inr ⟨id, by rw [List.find?_append, present, missing]; rfl, eq⟩
  · exact .inr ⟨id, by rw [List.find?_append, missing]; rfl, rfl⟩

theorem ok {a : α} (q : Q a) : Spells strings [] (.ok a) Q :=
  .inl ⟨rfl, a, rfl, q⟩

theorem map {k : α → β} {R : β → Prop} (h : Spells strings ids step Q) (next : ∀ a, Q a → R (k a)) :
    Spells strings ids (step >>= fun a => .ok (k a)) R := by
  have both := h.bind fun a q => (ok (next a q) : Spells strings [] (.ok (k a)) R)
  rwa [List.append_nil] at both

end Spells

/-- What a record keeps of numbers. -/
def Operand.immediate? : Operand → Option Immediate
  | .int value => some (.int value)
  | .float value => some (.float value)
  | _ => none

def Operand.label? : Operand → Option Label
  | .label l => some l
  | _ => none

namespace InstructionRecord

/-- A record has an opcode and just some operands, each among those of its kind. -/
structure Holds (strings : List String) (opcode : Option Nat) (operands : List Operand)
    (record : InstructionRecord) : Prop where
  opcode : record.opcode = opcode
  registers : record.registers = (operands.filterMap Operand.register?).map Register.index
  strings : record.strings.map some = (Operand.strings operands).map fun id => strings[id.index]?
  immediates : record.immediates = operands.filterMap Operand.immediate?
  label : record.label = (operands.filterMap Operand.label?).getLast?.map Label.render

theorem spells_addOperand {opcode : Option Nat} {operands : List Operand}
    {record : InstructionRecord} (h : record.Holds strings opcode operands) (o : Operand) :
    Spells strings (Operand.strings [o]) (addOperand strings record o)
      (Holds strings opcode (operands ++ [o])) := by
  obtain ⟨code, registers, names, immediates, label⟩ := h
  cases o with
  | string id =>
    by_cases missing : id.isMissing strings
    · refine .inr ⟨id, by simp [Operand.strings, missing], ?_⟩
      rw [addOperand, id.getElem?_eq_none missing]
      rfl
    · obtain ⟨s, eq⟩ := StringId.exists_getElem? missing
      refine .inl ⟨by simp [Operand.strings, missing], _, by rw [addOperand, eq], ?_⟩
      simp only [Operand.strings] at names
      constructor <;> simp [Operand.strings, Operand.register?, Operand.immediate?, Operand.label?, *]
  | _ =>
    refine Spells.ok ?_
    simp only [Operand.strings] at names
    constructor <;> simp [Operand.strings, Operand.register?, Operand.immediate?, Operand.label?, *]

theorem spells_foldlM_addOperand {opcode : Option Nat} {before : List Operand}
    {record : InstructionRecord} (h : record.Holds strings opcode before) (operands : List Operand) :
    Spells strings (Operand.strings operands) (operands.foldlM (addOperand strings) record)
      (Holds strings opcode (before ++ operands)) := by
  induction operands generalizing before record with
  | nil => exact Spells.ok (by simpa using h)
  | cons o operands ih =>
    have split : Operand.strings (o :: operands) = Operand.strings [o] ++ Operand.strings operands :=
      List.filterMap_append (l := [o])
    rw [List.foldlM_cons, split, List.append_cons]
    exact (spells_addOperand h o).bind fun _ held => ih held

/-- A label has no opcode. -/
def opcodeOf (i : Instruction) : Option Nat :=
  if i.isLabel then none else some i.opcode

theorem spells_ofEmitted (e : Emitted) : Spells strings e.instruction.strings (ofEmitted strings e)
      (Holds strings (opcodeOf e.instruction) e.instruction.operands) := by
  rw [ofEmitted]
  split
  · rename_i l same
    rw [same]
    exact Spells.ok (Q := Holds strings none [.label l]) ⟨rfl, rfl, rfl, rfl, rfl⟩
  · rename_i other
    have coded : opcodeOf e.instruction = some e.instruction.opcode := by
      unfold opcodeOf Instruction.isLabel
      split
      · exact absurd ‹_› (other _)
      · rfl
    have start : Holds strings (some e.instruction.opcode) []
        { opcode := some e.instruction.opcode, placement := e.placement } :=
      ⟨rfl, rfl, rfl, rfl, rfl⟩
    rw [coded]
    exact spells_foldlM_addOperand start _

theorem spells_mapM_ofEmitted (code : List Emitted) :
    Spells strings (code.flatMap fun e => e.instruction.strings)
      (code.mapM (ofEmitted strings)) (List.Forall₂ (fun e record =>
        Holds strings (opcodeOf e.instruction) e.instruction.operands record) code) := by
  induction code with
  | nil => exact Spells.ok .nil
  | cons e code ih =>
    rw [List.mapM_cons, List.flatMap_cons]
    exact (spells_ofEmitted e).bind fun _ named => ih.map fun _ rest => .cons named rest

end InstructionRecord

open InstructionRecord in
theorem UnitRecord.spells_ofUnit (u : CompiledUnit) :
    Spells strings u.strings (UnitRecord.ofUnit strings u) fun record =>
      List.Forall₂ (fun e record => record.Holds strings (opcodeOf e.instruction) e.instruction.operands)
        u.code record.instructions ∧ record.catches = u.catchTables.flatMap CatchRecord.ofTable :=
  (spells_mapM_ofEmitted u.code).map fun _ held => ⟨held, rfl⟩

end Records

/-! ## Written units -/

/-- A field of an object. -/
def Json.field? (name : String) : Json → Option Json
  | .object fields => fields.lookup name
  | _ => none

/-- What is written of an instruction: its opcode, and its operands by kind, strings as their texts. -/
structure Emitted.Written (strings : List String) (e : Emitted) (item : Json) : Prop where
  opcode : item.field? "o" = (InstructionRecord.opcodeOf e.instruction).map Json.nat
  registers : item.field? "r" = some (.array
    ((e.instruction.operands.filterMap Operand.register?).map fun r => .nat r.index))
  strings : ∃ texts, item.field? "id" = some (.strings texts) ∧
    texts.map some = e.instruction.strings.map fun id => strings[id.index]?
  immediates : item.field? "im" = some (.array
    ((e.instruction.operands.filterMap Operand.immediate?).map Immediate.toJson))
  label : item.field? "l" =
    (e.instruction.operands.filterMap Operand.label?).getLast?.map fun l => .string l.render

theorem InstructionRecord.Holds.written {strings : List String} {e : Emitted}
    {record : InstructionRecord}
    (h : record.Holds strings (opcodeOf e.instruction) e.instruction.operands) :
    e.Written strings record.toJson := by
  obtain ⟨code, registers, names, immediates, label⟩ := h
  obtain ⟨opcode, own, texts, numbers, target, placement⟩ := record
  dsimp only at code registers names immediates label
  subst code registers immediates label
  refine ⟨?_, ?_, ⟨texts, ?_, names⟩, ?_, ?_⟩
  all_goals
    unfold toJson Json.field?
    cases opcodeOf e.instruction <;>
      cases (e.instruction.operands.filterMap Operand.label?).getLast? <;>
      simp [List.lookup_cons]

/-- What is written of a unit. -/
structure CompiledUnit.Written (strings : List String) (u : CompiledUnit) (value : Json) : Prop where
  name : value.field? "n" = some (.string u.name)
  parameters : value.field? "p" = some (.nat u.parameterCount)
  registers : value.field? "r" = some (.nat u.registerCount)
  code : ∃ items, value.field? "i" = some (.array items) ∧
    List.Forall₂ (Emitted.Written strings) u.code items
  catches : value.field? "ca_tab" = some (.array (u.catchTables.flatMap fun table =>
    table.ranges.map fun range => .object [("tb_lab", .string range.1.render),
      ("te_lab", .string range.2.render), ("cb_lab", .string table.handler.render)]))
  rows : value.field? "v" = some (.array (u.variableRows.map VariableRow.toJson))

theorem UnitRecord.written {strings : List String} {u : CompiledUnit} {record : UnitRecord}
    (made : ofUnit strings u = .ok record) : u.Written strings record.toJson := by
  unfold ofUnit at made
  rcases @InstructionRecord.spells_mapM_ofEmitted strings u.code with
    ⟨-, records, eq, held⟩ | ⟨id, -, eq⟩
  · rw [eq] at made
    cases made
    refine ⟨rfl, rfl, rfl, ⟨_, rfl, ?_⟩, ?_, rfl⟩
    · rw [List.forall₂_map_right_iff]
      exact held.imp fun e record held => held.written
    · simp [toJson, Json.field?, List.lookup_cons, CatchRecord.ofTable, CatchRecord.toJson,
        List.map_flatMap, Function.comp_def]
  · rw [eq] at made
    cases made

/-! ## Pieces -/

def UnitRecord.piece (record : UnitRecord) : Piece where
  kind := .function
  value := record.toJson

/-- A piece, by the number of its kind. -/
abbrev TaggedPiece := Nat × Json

def TaggedPiece.frame (piece : TaggedPiece) : List Char :=
  Stream.frame (Json.object [("t", .nat piece.1), ("v", piece.2)]).render.toList

/-- The options, the name of the record, the name of the output file and some units. -/
def Options.front (options : Options) (settings : Json) (units : List Json) : List TaggedPiece :=
  [(5, settings), (7, .string options.recordName), (8, .string options.outputFileName)] ++
    units.map fun unit => (0, unit)

/-- The strings, the buffers of literals and the record of the module, if there is one. -/
def CompiledProgram.back (p : CompiledProgram) : List TaggedPiece :=
  [(2, .strings p.strings)] ++ (p.literals.map fun buffer => (3, buffer.toJson)) ++
    p.moduleRecord.toList.map fun record => (4, record.toJson)

namespace Transmission

def result (t : Transmission) : Except CompileError Unit :=
  match t.failure with
  | none => .ok ()
  | some e => .error e

def frames (t : Transmission) : List Char :=
  (t.pieces.map Piece.text).flatMap Stream.frame

end Transmission

/-! ## Writing -/

namespace Writer

end Writer

end AccScript
