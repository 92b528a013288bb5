import AccScript.Proofs.Stream.Transmission

/-!
# Nothing is lost in records

A record sorts the operands of an instruction by kind. From the opcode and the sorted operands the
instruction can be put together again, so units with the same records have the same code.
-/

namespace AccScript

/-- The operands of an instruction, sorted by kind. -/
structure Parts where
  registers : List Register
  strings : List StringId
  immediates : List Immediate
  label : Option Label

namespace Parts

def ofOperands (operands : List Operand) : Parts where
  registers := operands.filterMap Operand.register?
  strings := Operand.strings operands
  immediates := operands.filterMap Operand.immediate?
  label := (operands.filterMap Operand.label?).getLast?

variable (p : Parts)

def register (k : Nat) : Register :=
  p.registers.getD k default

def string : StringId :=
  p.strings.headD default

def target : Label :=
  p.label.getD default

def number (k : Nat) : Int :=
  match p.immediates[k]? with
  | some (.int value) => value
  | _ => 0

def float : Binary64 :=
  match p.immediates with
  | .float value :: _ => value
  | _ => default

end Parts

namespace Instruction

/-- How an instruction is put together again. -/
abbrev Form :=
  Parts → Instruction

section Forms

def bare (i : Instruction) : Form := fun _ => i

def ofRegister (make : Register → Instruction) : Form := fun p => make (p.register 0)

def ofRegisters (make : Register → Register → Instruction) : Form := fun p =>
  make (p.register 0) (p.register 1)

def ofString (make : StringId → Instruction) : Form := fun p => make p.string

def ofAccess (make : StringId → Register → Instruction) : Form := fun p =>
  make p.string (p.register 0)

def ofNumber (make : Nat → Instruction) : Form := fun p => make (p.number 0).toNat

def ofNumbers (make : Nat → Nat → Instruction) : Form := fun p =>
  make (p.number 0).toNat (p.number 1).toNat

def ofElement (make : Register → Nat → Instruction) : Form := fun p =>
  make (p.register 0) (p.number 0).toNat

def ofConstant (make : StringId → Nat → Instruction) : Form := fun p =>
  make p.string (p.number 0).toNat

def ofLabel (make : Label → Instruction) : Form := fun p => make p.target

/-- The forms of the whole set, in the order of the opcodes. -/
def forms : List Form := List.flatten
  [[ofLabel .label, ofRegister .lda, ofRegister .sta, ofRegisters .mov, fun p => .ldai (p.number 0),
      fun p => .fldai p.float, ofString .ldaStr, ofString .ldBigInt],
    [.undefined, .null, .true, .false, .hole, .nan, .infinity, .global, .function, .newTarget,
      .this].map fun value => bare (.ldConst value),
    [.tryLoad, .tryStore, .loadVar, .storeVar, .storeLet, .storeConst, .storeClass].map fun access =>
      ofString (.global access),
    [ofNumber .newLexEnv, ofNumbers .newLexEnvWithName, bare .popLexEnv, ofNumbers .ldLexVar,
      ofNumbers .stLexVar, ofNumber .ldLocalModuleVar, ofNumber .ldExternalModuleVar,
      ofNumber .stModuleVar, ofNumber .getModuleNamespace, ofString .throwUndefinedIfHole,
      ofRegister .throwConstAssignment, fun p => .throwIfSuperNotCorrectCall (p.number 0),
      bare .throwDeleteSuperProperty, ofRegister .throwIfNotObject, bare .throw],
    [ofString .ldObjByName, ofAccess .stObjByName, ofRegister .ldObjByValue,
      ofRegisters .stObjByValue, ofNumber .ldObjByIndex, ofElement .stObjByIndex,
      ofAccess .stOwnByName, ofRegisters .stOwnByValue, ofElement .stOwnByIndex,
      ofRegister .delObjProp, ofString .ldSuperByName, ofRegister .ldSuperByValue,
      ofAccess .stSuperByName, ofRegisters .stSuperByValue],
    [bare .createEmptyObject, bare .createEmptyArray, ofNumber .createArrayWithBuffer,
      ofNumber .createObjectWithBuffer, ofConstant .createRegExpWithLiteral,
      ofRegisters .stArraySpread, ofRegister .copyDataProperties,
      fun p => .defineGetterSetterByValue (p.register 0) (p.register 1) (p.register 2) (p.register 3),
      ofConstant .defineFunc, ofConstant .defineMethod,
      fun p => .defineClassWithBuffer p.string (p.number 0).toNat (p.number 1).toNat (p.register 0),
      bare .getTemplateObject],
    [fun p => .callArgs p.registers, fun p => .callThis (p.register 0) p.registers.tail,
      fun p => .callSpread (p.register 0) (p.register 1) (p.register 2),
      fun p => .newObjRange (p.register 0) p.registers.tail,
      fun p => .superCallThisRange p.registers, ofRegister .superCallSpread,
      ofNumber .copyRestArgs, bare .getUnmappedArgs, bare .getIterator, ofRegister .closeIterator,
      bare .getPropIterator, ofRegister .getNextPropName],
    [.add, .sub, .mul, .div, .mod, .exp, .shiftLeft, .shiftRight, .unsignedShiftRight, .bitAnd, .bitOr,
      .bitXor, .eq, .notEq, .strictEq, .strictNotEq, .less, .lessEq, .greater, .greaterEq, .isIn,
      .instanceOf].map fun op => ofRegister (.binary op),
    [.neg, .not, .inc, .dec, .toNumber, .toNumeric, .typeOf, .isTrue, .isFalse].map fun op =>
      bare (.unary op),
    [ofLabel .jmp, ofLabel .jeqz, ofLabel .jnez, bare .return, bare .returnUndefined, bare .debugger]]

end Forms

/-- The place of an instruction in the set, where families have a place for each member. -/
def place : Instruction → Nat
  | .ldConst value => 8 + value.ctorIdx
  | .global access _ => 19 + access.ctorIdx
  | .binary op _ => 79 + op.ctorIdx
  | .unary op => 101 + op.ctorIdx
  | i =>
      if i.ctorIdx < 8 then i.ctorIdx
      else if i.ctorIdx < 64 then i.ctorIdx + 16
      else i.ctorIdx + 45

/-! ## Opcodes -/

theorem getElem?_place (i : Instruction) : mnemonics[i.place]? = some i.mnemonic := by
  cases i with
  | ldConst value => cases value <;> rfl
  | global access => cases access <;> rfl
  | binary op => cases op <;> rfl
  | unary op => cases op <;> rfl
  | _ => rfl

theorem nodup_mnemonics : mnemonics.Nodup := by
  decide +kernel

theorem opcode_eq_place (i : Instruction) : i.opcode = i.place := by
  obtain ⟨inside, found⟩ := List.getElem?_eq_some_iff.mp i.getElem?_place
  rw [opcode, ← found]
  exact nodup_mnemonics.idxOf_getElem _ inside

/-! ## Putting together -/

theorem filterMap_register (args : List Register) :
    (args.map Operand.register).filterMap Operand.register? = args := by
  rw [List.filterMap_map]
  exact List.filterMap_some

/-- An instruction is put together again from its opcode and its sorted operands. -/
theorem forms_opcode (i : Instruction) :
    forms[i.opcode]?.map (· (.ofOperands i.operands)) = some i := by
  rw [opcode_eq_place]
  cases i with
  | ldConst value => cases value <;> rfl
  | global access => cases access <;> rfl
  | binary op => cases op <;> rfl
  | unary op => cases op <;> rfl
  | callArgs args => exact congrArg (some ∘ Instruction.callArgs) (filterMap_register args)
  | callThis receiver args =>
    exact congrArg (some ∘ Instruction.callThis receiver) (filterMap_register args)
  | newObjRange callee args =>
    exact congrArg (some ∘ Instruction.newObjRange callee) (filterMap_register args)
  | superCallThisRange args =>
    exact congrArg (some ∘ Instruction.superCallThisRange) (filterMap_register args)
  | _ => rfl

theorem eq_of_opcode {i j : Instruction} (same : i.opcode = j.opcode)
    (parts : Parts.ofOperands i.operands = .ofOperands j.operands) : i = j := by
  have made := i.forms_opcode
  rw [same, parts, j.forms_opcode] at made
  exact (Option.some.inj made).symm

theorem opcode_of_opcodeOf {i j : Instruction}
    (same : InstructionRecord.opcodeOf i = InstructionRecord.opcodeOf j) : i.opcode = j.opcode := by
  have label_of {k : Instruction} (isLabel : k.isLabel) : k.mnemonic = "label" := by
    cases k <;> first | rfl | cases isLabel
  unfold InstructionRecord.opcodeOf at same
  split at same <;> rename_i first <;> split at same <;> rename_i second
  · rw [opcode, opcode, label_of first, label_of second]
  · cases same
  · cases same
  · exact Option.some.inj same

end Instruction

/-! ## Records of instructions -/

theorem Label.render_injective : Function.Injective Label.render := by
  rintro ⟨l⟩ ⟨l'⟩ same
  exact congrArg _ (eq_of_toString ((String.append_right_inj _).mp same))

/-- In a table without duplicates a text has one place. -/
theorem eq_of_texts {strings texts : List String} (distinct : strings.Nodup) {ids ids' : List StringId}
    (h : texts.map some = ids.map fun id => strings[id.index]?)
    (h' : texts.map some = ids'.map fun id => strings[id.index]?) : ids = ids' := by
  induction texts generalizing ids ids' with
  | nil => rw [List.map_eq_nil_iff.mp h.symm, List.map_eq_nil_iff.mp h'.symm]
  | cons text texts ih =>
    obtain ⟨⟨k⟩, rest, rfl, found, behind⟩ := List.map_eq_cons_iff.mp h.symm
    obtain ⟨⟨k'⟩, rest', rfl, found', behind'⟩ := List.map_eq_cons_iff.mp h'.symm
    have inside := (List.getElem?_eq_some_iff.mp found).1
    cases (List.getElem?_inj inside distinct).mp (found.trans found'.symm)
    rw [ih behind.symm behind'.symm]

namespace InstructionRecord

/-- What a record says of an instruction, without its place in the source. -/
def content (r : InstructionRecord) :
    Option Nat × List Nat × List String × List Immediate × Option String :=
  (r.opcode, r.registers, r.strings, r.immediates, r.label)

theorem Holds.instruction_eq {strings : List String} (distinct : strings.Nodup) {i j : Instruction}
    {r r' : InstructionRecord} (h : r.Holds strings (opcodeOf i) i.operands)
    (h' : r'.Holds strings (opcodeOf j) j.operands) (same : r.content = r'.content) : i = j := by
  simp only [content, Prod.mk.injEq] at same
  obtain ⟨opcodes, registers, texts, immediates, labels⟩ := same
  have indexed : Function.Injective Register.index := fun ⟨_⟩ ⟨_⟩ same => congrArg _ same
  rw [h.opcode, h'.opcode] at opcodes
  rw [h.registers, h'.registers] at registers
  rw [h.immediates, h'.immediates] at immediates
  rw [h.label, h'.label] at labels
  refine Instruction.eq_of_opcode (Instruction.opcode_of_opcodeOf opcodes) ?_
  rw [Parts.ofOperands, Parts.ofOperands, List.map_injective_iff.mpr indexed registers,
    eq_of_texts distinct h.strings (texts ▸ h'.strings), immediates,
    Option.map_injective Label.render_injective labels]

theorem instructions_eq {strings : List String} (distinct : strings.Nodup)
    {code code' : List Emitted} {records records' : List InstructionRecord}
    (h : code.Forall₂ (fun e r => r.Holds strings (opcodeOf e.instruction) e.instruction.operands) records)
    (h' : code'.Forall₂ (fun e r => r.Holds strings (opcodeOf e.instruction) e.instruction.operands) records')
    (same : records.map content = records'.map content) :
    code.map Emitted.instruction = code'.map Emitted.instruction := by
  induction h generalizing code' records' with
  | nil =>
    rw [List.map_eq_nil_iff.mp same.symm] at h'
    cases h'
    rfl
  | cons held _ ih =>
    cases h' with
    | nil => cases same
    | cons held' rest' =>
      obtain ⟨first, rest⟩ := List.cons.inj same
      rw [List.map_cons, List.map_cons, held.instruction_eq distinct held' first, ih rest' rest]

end InstructionRecord

/-! ## Catch tables -/

/-- Each table has a handler of its own, and protects something. -/
structure CatchTable.Separate (tables : List CatchTable) : Prop where
  handlers : (tables.map CatchTable.handler).Nodup
  ranges : ∀ table ∈ tables, table.ranges ≠ []

namespace CatchRecord

theorem handler_of_mem {table : CatchTable} {r : CatchRecord} (mem : r ∈ ofTable table) :
    r.handler = table.handler.render := by
  obtain ⟨_, -, rfl⟩ := List.mem_map.mp mem
  rfl

/-- The records of one table stand apart from those of the tables behind it. -/
theorem filter_handler {table : CatchTable} {tables : List CatchTable}
    (separate : CatchTable.Separate (table :: tables)) :
    ((table :: tables).flatMap ofTable).filter (·.handler = table.handler.render) = ofTable table := by
  have other : ∀ r ∈ tables.flatMap ofTable, ¬ r.handler = table.handler.render := by
    intro r mem same
    obtain ⟨later, among, own⟩ := List.mem_flatMap.mp mem
    rw [handler_of_mem own] at same
    refine (List.nodup_cons.mp separate.handlers).1 ?_
    rw [← Label.render_injective same]
    exact List.mem_map_of_mem among
  rw [List.flatMap_cons, List.filter_append,
    (List.filter_eq_nil_iff (l := tables.flatMap ofTable)).mpr (by simpa using other),
    List.append_nil, List.filter_eq_self]
  exact fun r mem => decide_eq_true (handler_of_mem mem)

theorem ofTable_injective {table table' : CatchTable} (handlers : table.handler = table'.handler)
    (same : ofTable table = ofTable table') : table = table' := by
  obtain ⟨handler, ranges⟩ := table
  obtain ⟨_, ranges'⟩ := table'
  subst handlers
  congr
  refine List.map_injective_iff.mpr ?_ same
  rintro ⟨l, m⟩ ⟨l', m'⟩ same
  simp only [mk.injEq] at same
  rw [Label.render_injective same.1, Label.render_injective same.2.1]

theorem tables_eq {tables tables' : List CatchTable} (separate : CatchTable.Separate tables)
    (separate' : CatchTable.Separate tables')
    (same : tables.flatMap ofTable = tables'.flatMap ofTable) : tables = tables' := by
  induction tables generalizing tables' with
  | nil =>
    cases tables' with
    | nil => rfl
    | cons table' _ =>
      have empty := List.map_eq_nil_iff.mp (List.append_eq_nil_iff.mp same.symm).1
      exact absurd empty (separate'.ranges _ (.head _))
  | cons table tables ih =>
    obtain ⟨range, ranges, own⟩ := List.exists_cons_of_ne_nil (separate.ranges table (.head _))
    cases tables' with
    | nil => cases (List.map_eq_nil_iff.mp (List.append_eq_nil_iff.mp same).1).symm.trans own
    | cons table' tables' =>
      obtain ⟨range', ranges', own'⟩ := List.exists_cons_of_ne_nil (separate'.ranges table' (.head _))
      have first := same
      rw [List.flatMap_cons, List.flatMap_cons, ofTable, ofTable, own, own'] at first
      have handlers := Label.render_injective (CatchRecord.mk.inj (List.cons.inj first).1).2.2
      have tables_eq : table = table' := by
        refine ofTable_injective handlers ?_
        rw [← filter_handler separate, ← filter_handler separate', same, handlers]
      subst tables_eq
      have rest {tables : List CatchTable} (separate : CatchTable.Separate (table :: tables)) :
          CatchTable.Separate tables :=
        ⟨(List.nodup_cons.mp separate.handlers).2, fun t mem => separate.ranges t (.tail _ mem)⟩
      rw [ih (rest separate) (rest separate') (List.append_cancel_left same)]

end CatchRecord

/-! ## Units -/

namespace UnitRecord

theorem holds_ofUnit {strings : List String} {u : CompiledUnit} {r : UnitRecord}
    (made : ofUnit strings u = .ok r) :
    u.code.Forall₂ (fun e r => r.Holds strings (InstructionRecord.opcodeOf e.instruction)
      e.instruction.operands) r.instructions ∧ r.catches = u.catchTables.flatMap CatchRecord.ofTable := by
  rcases @spells_ofUnit strings u with ⟨-, _, eq, held⟩ | ⟨_, -, eq⟩
  · cases made.symm.trans eq
    exact held
  · cases made.symm.trans eq

/-- Units with the same records have the same instructions, and the same catch tables if each table
has its own handler. -/
theorem ofUnit_injective {strings : List String} (distinct : strings.Nodup) {u u' : CompiledUnit}
    {r r' : UnitRecord} (made : ofUnit strings u = .ok r) (made' : ofUnit strings u' = .ok r')
    (instructions : r.instructions.map InstructionRecord.content =
      r'.instructions.map InstructionRecord.content) (catches : r.catches = r'.catches) :
    u.code.map Emitted.instruction = u'.code.map Emitted.instruction ∧
      (CatchTable.Separate u.catchTables → CatchTable.Separate u'.catchTables →
        u.catchTables = u'.catchTables) := by
  obtain ⟨held, tables⟩ := holds_ofUnit made
  obtain ⟨held', tables'⟩ := holds_ofUnit made'
  refine ⟨InstructionRecord.instructions_eq distinct held held' instructions, fun separate separate' => ?_⟩
  exact CatchRecord.tables_eq separate separate' (tables ▸ tables' ▸ catches)

end UnitRecord

/-- A call inside of a protected range, at a line. -/
def CompiledUnit.protectedCall (line : Int) : CompiledUnit where
  name := "f"
  parameterCount := 4
  registerCount := 5
  code := [.label ⟨0⟩, .ldObjByName ⟨1⟩, .callThis ⟨4⟩ [⟨3⟩], .label ⟨1⟩, .returnUndefined, .label ⟨2⟩,
    .throw].map fun i => { instruction := i, origin := .functionStart, placement := { line } }
  catchTables := [⟨⟨2⟩, [(⟨0⟩, ⟨1⟩)]⟩]

theorem ofUnit_injective_protectedCall :
    (CompiledUnit.protectedCall 1).code.map Emitted.instruction =
        (CompiledUnit.protectedCall 2).code.map Emitted.instruction ∧
      (CompiledUnit.protectedCall 1).catchTables = (CompiledUnit.protectedCall 2).catchTables := by
  have separate : CatchTable.Separate [⟨⟨2⟩, [(⟨0⟩, ⟨1⟩)]⟩] := ⟨by decide, by decide⟩
  have made (line : Int) : UnitRecord.ofUnit ["f", "run"] (.protectedCall line) = .ok _ := rfl
  have both := UnitRecord.ofUnit_injective (by decide) (made 1) (made 2) rfl rfl
  exact ⟨both.1, both.2 separate separate⟩

end AccScript
