import AccScript.Proofs.Lowering.Program
import AccScript.Proofs.Metadata.Unit

/-!
# Compilation without metadata

Compilation keeps in step with the compilation of the bare program, without types: unit by unit, the
two assemble the same code.  So programs that differ in metadata alone are compiled alike.
-/

namespace AccScript

open Asm Lower

variable {c : CompileContext}

/-! ## One unit -/

namespace CompileContext

/-- A compilation without positions and types. -/
def bare (c : CompileContext) : CompileContext where
  program := c.program.bare
  options := c.options
  survey := c.survey.untyped
  names := c.names

/-- The variables that are ready wherever a unit uses them: those that start initialized, module
variables and the parameters of the unit. -/
def Ready (c : CompileContext) (scope : ScopeId) (v : VariableId) : Prop :=
  (∃ data, c.survey.tree.var? v = some data ∧
    (data.startsInitialized = true ∨ data.isModule = true)) ∨
  ∃ data, c.survey.tree.variableScope? scope = some data ∧ v ∈ data.parameters

end CompileContext

namespace UnitSource

variable (source : UnitSource)

theorem node_bare (p : Program) : source.bare.node p.bare = source.node p := by
  cases source with
  | program | defaultConstructor => rfl
  | function f => exact f.id_bare

theorem owner?_bare : source.bare.owner? = source.owner?.map .bare := by
  cases source <;> rfl

theorem isStrict_bare (p : Program) (options : Options) :
    source.bare.isStrict p.bare options = source.isStrict p options := by
  cases source <;> rfl

end UnitSource

theorem Assembler.nextUnit_bare (a : Assembler) : a.bare.nextUnit = a.nextUnit.bare := by
  simp [nextUnit, bare, Origin.bare]

theorem Assembler.bare_ofOptions (options : Options) : (ofOptions options).bare = ofOptions options := by
  simp [ofOptions, bare, Origin.bare]

theorem matches_env (source : UnitSource) (scope : ScopeId) :
    (c.env source scope).Matches (c.Ready scope) [] (c.bare.env source.bare scope) := by
  have base : Env.Matches (c.Ready scope) []
      { survey := c.survey, options := c.options, names := c.names, scope, functionScope := scope
        isStrict := source.isStrict c.program c.options }
      { survey := c.survey.untyped, options := c.options, names := c.names, scope
        functionScope := scope, isStrict := source.isStrict c.program c.options } :=
    { same := rfl
      finalizers := .nil
      fieldInit := .done
      exempt := fun v data found ready => .inl ⟨data, found, ready⟩
      parameters := fun data found v mem => .inr ⟨data, found, mem⟩ }
  unfold CompileContext.env
  rw [source.owner?_bare, CompileContext.bare, source.isStrict_bare]
  exact { base with same := rfl, fieldInit := echo_fieldInitOf source.owner? base }

theorem agrees_assemble (c : CompileContext) (before : Assembler) (source : UnitSource) :
    Agrees (fun a b => b = a.bare ∧ ∃ scope, c.survey.scopeOf (source.node c.program) = .ok scope ∧
        before.nextUnit.Moves (c.Ready scope) a)
      (c.assemble before source) (c.bare.assemble before.bare source.bare) := by
  have node : source.bare.node c.bare.program = source.node c.program := source.node_bare c.program
  unfold CompileContext.assemble
  rw [node, Assembler.nextUnit_bare]
  show Agrees _ (c.survey.scopeOf (source.node c.program) >>= _)
    (c.survey.scopeOf (source.node c.program) >>= _)
  cases c.survey.scopeOf (source.node c.program) with
  | error failure => exact .error rfl
  | ok scope =>
    have echo := resounds_unitCode (E := c.Ready scope) c.program source [] [] _ _
      (List.Subset.refl []) (matches_env source scope) before.nextUnit (by simp)
    refine echo.bind ?_
    rintro ⟨_, a⟩ _ ⟨rfl, moves, -⟩
    exact .ok ⟨rfl, scope, rfl, moves⟩

theorem agrees_parameterCount (node : NodeId) :
    Agrees Eq (c.parameterCount node) (c.bare.parameterCount node) := by
  refine .of_eq ?_
  unfold CompileContext.parameterCount
  show _ = c.survey.scopeOf node >>= fun scope =>
    orBroken (c.survey.tree.untyped.variableScope? scope) >>= _
  simp only [ScopeTree.variableScope?_untyped]

/-! ## Finished units -/

def AssembledUnit.bare (u : AssembledUnit) : AssembledUnit :=
  { u with code := u.code.map Emitted.bare }

theorem agrees_finish (a : Assembler) :
    Agrees (fun u v => v = AssembledUnit.bare u) a.finish a.bare.finish := by
  unfold Assembler.finish
  show Agrees _ _ (if a.liveTemps ≠ 0 then _ else _)
  split
  · exact .error rfl
  · refine .ok ?_
    simp [AssembledUnit.bare, Assembler.bare]

theorem variableRows_bare (unit : AssembledUnit) :
    c.bare.variableRows unit.bare = c.variableRows unit := by
  have row (range : ScopeRange) (registerOf : VariableId → Option Register)
      (isInitialized : VariableId → Bool) (v : VariableId) :
      c.survey.tree.untyped.variableRow? range registerOf isInitialized v =
        c.survey.tree.variableRow? range registerOf isInitialized v := by
    unfold ScopeTree.variableRow?
    rw [ScopeTree.var?_untyped]
    cases c.survey.tree.var? v <;> rfl
  show (if c.options.debugMode then c.survey.tree.untyped.variableTable _ _ _ else []) = _
  unfold CompileContext.variableRows ScopeTree.variableTable
  simp only [row, ScopeTree.scope?_untyped]
  rfl

/-- Units that differ at most in positions: not in their names, parameters, registers, instructions,
handlers and variables. -/
structure CompiledUnit.Alike (u v : CompiledUnit) : Prop where
  name : u.name = v.name
  parameterCount : u.parameterCount = v.parameterCount
  registerCount : u.registerCount = v.registerCount
  instructions : u.code.map Emitted.instruction = v.code.map Emitted.instruction
  catchTables : u.catchTables = v.catchTables
  variableRows : u.variableRows = v.variableRows

/-- Programs whose units are alike, one by one, and that share all tables. -/
structure CompiledProgram.Alike (p q : CompiledProgram) : Prop where
  units : List.Forall₂ CompiledUnit.Alike p.units q.units
  strings : p.strings = q.strings
  literals : p.literals = q.literals
  moduleRecord : p.moduleRecord = q.moduleRecord

theorem map_instruction_annotate {start : Position} {debugMode : Bool} {code placed : List Emitted}
    (h : Emitted.annotate start debugMode code = .ok placed) :
    placed.map Emitted.instruction = code.map Emitted.instruction := by
  have same := congrArg (List.map Prod.fst) (Emitted.map_content_annotate h)
  rwa [List.map_map, List.map_map] at same

theorem agrees_annotate_code (start start' : Position) (debugMode : Bool) {code code' : List Emitted}
    (same : code'.map Emitted.instruction = code.map Emitted.instruction) :
    Agrees (fun placed placed' => placed.map Emitted.instruction = placed'.map Emitted.instruction)
      (Emitted.annotate start debugMode code) (Emitted.annotate start' debugMode code') := by
  have encodable : (code'.all fun e => e.instruction.isEncodable) =
      code.all fun e => e.instruction.isEncodable := by
    have all := congrArg (List.all · Instruction.isEncodable) same
    simpa [List.all_map, Function.comp_def] using all
  cases placed : Emitted.annotate start debugMode code with
  | ok placed =>
    cases placed' : Emitted.annotate start' debugMode code' with
    | ok placed' =>
      exact .ok ((map_instruction_annotate ‹_›).trans (same.symm.trans (map_instruction_annotate ‹_›).symm))
    | error failure =>
      unfold Emitted.annotate at placed placed'
      rw [encodable] at placed'
      split at placed <;> simp_all
  | error failure =>
    unfold Emitted.annotate at placed ⊢
    rw [encodable]
    split at placed
    · cases placed
    · cases placed
      rw [if_neg ‹_›]
      exact .error rfl

theorem agrees_annotate (source : UnitSource) (name : String) (count : Nat) (unit : AssembledUnit) :
    Agrees CompiledUnit.Alike (c.annotate source name count unit)
      (c.bare.annotate source.bare name count unit.bare) := by
  have same : unit.bare.code.map Emitted.instruction = unit.code.map Emitted.instruction := by
    simp [AssembledUnit.bare, Emitted.bare]
  refine (agrees_annotate_code _ _ c.options.debugMode same).bind fun code code' instructions => .ok ?_
  exact ⟨rfl, rfl, rfl, instructions, rfl, (variableRows_bare unit).symm⟩

/-! ## All units -/

/-- Two compilations that are in step. -/
structure Progress.Echoes (p q : Progress) : Prop where
  assembler : q.assembler = p.assembler.bare
  met : q.met = p.met
  units : List.Forall₂ CompiledUnit.Alike p.units.toList q.units.toList

/-- Compilations that stay in step, with related results. -/
def InStep {α β : Type} (R : α → β → Prop) (m : Compile α) (m' : Compile β) : Prop :=
  ∀ p q : Progress, p.Echoes q →
    Agrees (fun x y => R x.1 y.1 ∧ x.2.Echoes y.2) (m.run p) (m'.run q)

namespace InStep

variable {α β γ δ : Type} {R : α → β → Prop} {S : γ → δ → Prop}

theorem bind {m : Compile α} {m' : Compile β} {f : α → Compile γ} {f' : β → Compile δ}
    (first : InStep R m m') (next : ∀ x y, R x y → InStep S (f x) (f' y)) :
    InStep S (m >>= f) (m' >>= f') := by
  intro p q echoes
  refine (first p q echoes).bind ?_
  rintro ⟨x, p⟩ ⟨y, q⟩ ⟨related, echoes⟩
  exact next x y related p q echoes

theorem done : InStep Eq (pure () : Compile Unit) (pure ()) :=
  fun _ _ echoes => .ok ⟨rfl, echoes⟩

theorem get {f f' : Progress → Compile γ} {T : γ → γ → Prop}
    (h : ∀ p q : Progress, p.Echoes q → InStep T (f p) (f' q)) :
    InStep T (MonadState.get >>= f) (MonadState.get >>= f') :=
  fun p q echoes => h p q echoes p q echoes

theorem ask {x : Except Failure α} {y : Except Failure β} (h : Agrees R x y) :
    InStep R (liftM x) (liftM y) := by
  intro p q echoes
  cases h with
  | ok related => exact .ok ⟨related, echoes⟩
  | error same => exact .error same

theorem update {f f' : Progress → Progress} (h : ∀ p q : Progress, p.Echoes q → (f p).Echoes (f' q)) :
    InStep Eq (modify f : Compile Unit) (modify f') :=
  fun p q echoes => .ok ⟨rfl, h p q echoes⟩

theorem forM {f f' : UnitSource → Compile Unit} (h : ∀ source, InStep Eq (f source) (f' source.bare))
    (sources : List UnitSource) : InStep Eq (sources.forM f) ((sources.map .bare).forM f') := by
  induction sources with
  | nil => exact done
  | cons source rest ih => exact (h source).bind fun _ _ _ => ih

end InStep

theorem inStep_compileUnit (c : CompileContext) (depth : Nat) (source : UnitSource) :
    InStep Eq (c.compileUnit depth source) (c.bare.compileUnit depth source.bare) := by
  induction depth generalizing source with
  | zero => exact fun _ _ _ => .error rfl
  | succ depth ih =>
    unfold CompileContext.compileUnit
    have node : source.bare.node c.bare.program = source.node c.program := source.node_bare c.program
    rw [node]
    refine .get fun p q echoes => ?_
    rw [echoes.met]
    split
    · exact .done
    refine .bind (.update fun p q h => ⟨h.assembler, by rw [h.met], h.units⟩) fun _ _ _ => ?_
    refine .bind (.ask (Agrees.refl (c.unitName (source.node c.program)))) ?_
    rintro name _ rfl
    refine .get fun p q echoes => ?_
    rw [echoes.assembler]
    refine .bind (.ask (agrees_assemble c p.assembler source)) ?_
    rintro a _ ⟨rfl, -⟩
    refine .bind (.ask (agrees_parameterCount (source.node c.program))) ?_
    rintro count _ rfl
    refine .bind (.ask (agrees_finish a)) ?_
    rintro unit _ rfl
    refine .bind (.update fun p q h => ⟨rfl, h.met, h.units⟩) fun _ _ _ => ?_
    have inner : a.bare.units.toList = a.units.toList.map .bare := by simp [Assembler.bare]
    rw [inner]
    refine .bind (.forM ih a.units.toList) fun _ _ _ => ?_
    refine .bind (.ask (agrees_annotate source name count unit)) fun compiled compiled' alike => ?_
    refine .update fun p q h => ⟨h.assembler, h.met, ?_⟩
    rw [Array.toList_push, Array.toList_push]
    exact List.rel_append h.units (.cons alike .nil)

theorem agrees_run (c : CompileContext) : Agrees CompiledProgram.Alike c.run c.bare.run := by
  have start : Progress.Echoes { assembler := .ofOptions c.options }
      { assembler := .ofOptions c.bare.options } :=
    ⟨(Assembler.bare_ofOptions c.options).symm, rfl, .nil⟩
  refine (inStep_compileUnit c c.depth .program _ _ start).bind ?_
  rintro ⟨_, p⟩ ⟨_, q⟩ ⟨-, echoes⟩
  refine .ok ⟨echoes.units, ?_, ?_, rfl⟩
  · exact (congrArg Assembler.strings echoes.assembler).symm
  · exact (congrArg (fun a : Assembler => a.literals.toList) echoes.assembler).symm

/-! ## Programs -/

namespace CompiledUnit.Alike

variable {u v w : CompiledUnit}

theorem join (h : u.Alike w) (h' : v.Alike w) : u.Alike v where
  name := h.name.trans h'.name.symm
  parameterCount := h.parameterCount.trans h'.parameterCount.symm
  registerCount := h.registerCount.trans h'.registerCount.symm
  instructions := h.instructions.trans h'.instructions.symm
  catchTables := h.catchTables.trans h'.catchTables.symm
  variableRows := h.variableRows.trans h'.variableRows.symm

theorem join_all {us vs ws : List CompiledUnit} (h : List.Forall₂ Alike us ws)
    (h' : List.Forall₂ Alike vs ws) : List.Forall₂ Alike us vs := by
  induction h generalizing vs with
  | nil =>
    cases h'
    exact .nil
  | cons first _ ih =>
    cases h' with
    | cons first' rest' => exact .cons (first.join first') (ih rest')

end CompiledUnit.Alike

theorem CompiledProgram.Alike.join {p q r : CompiledProgram} (h : p.Alike r) (h' : q.Alike r) :
    p.Alike q where
  units := CompiledUnit.Alike.join_all h.units h'.units
  strings := h.strings.trans h'.strings.symm
  literals := h.literals.trans h'.literals.symm
  moduleRecord := h.moduleRecord.trans h'.moduleRecord.symm

/-- Compiles a program that has neither positions nor types. -/
def compileBare (p : Program) (options : Options) : Except Failure CompiledProgram := do
  let survey ← Survey.analyzeUntyped p options
  CompileContext.run { program := p, options, survey, names := survey.internalNames p }

theorem agrees_compileBare (p : Program) (options : Options) (types : TypeTable) :
    Agrees CompiledProgram.Alike (do (← CompileContext.ofProgram p options types).run)
      (compileBare p.bare options) := by
  rw [CompileContext.ofProgram, bind_assoc]
  refine (Survey.agrees_analyze p options types).bind ?_
  rintro survey _ rfl
  exact agrees_run { program := p, options, survey, names := survey.internalNames p }

/-- **Positions and types have no say.**  Programs that differ in metadata alone compile alike, under
any types, or fail alike. -/
theorem compile_alike (p q : Program) (options : Options) (types types' : TypeTable)
    (same : p.bare = q.bare) :
    match compile p options types, compile q options types' with
    | .ok result, .ok result' => result.Alike result'
    | .error e, .error e' => e.variant = e'.variant
    | _, _ => False := by
  have first := agrees_compileBare p options types
  have second := agrees_compileBare q options types'
  rw [same] at first
  have outcome := first.join second fun _ _ _ h h' => h.join h'
  unfold compile
  generalize (do (← CompileContext.ofProgram p options types).run) = result,
    (do (← CompileContext.ofProgram q options types').run) = result' at outcome ⊢
  cases outcome with
  | ok alike => exact alike
  | error same => exact same

/-- The example without its positions, its root elsewhere, and with a node derived from another. -/
def Program.movedCollector : Program :=
  { Program.collector.bare with position := ⟨7, 4⟩, derivedFrom := [(13, 21)] }

theorem compile_alike_collector : ∃ result result',
      compile .collector {} (fun _ => none) = .ok result ∧ result.units.length = 5 ∧
      compile .movedCollector {} (fun node => some (node + 1)) = .ok result' ∧
      result.Alike result' := by
  have follows (p q : Program) (types types' : TypeTable) (same : p.bare = q.bare)
      {result : CompiledProgram} (compiled : compile p {} types = .ok result) :
      ∃ result', compile q {} types' = .ok result' ∧ result.Alike result' := by
    have outcome := compile_alike p q {} types types' same
    rw [compiled] at outcome
    cases other : compile q {} types' with
    | error e =>
      rw [other] at outcome
      exact outcome.elim
    | ok result' =>
      rw [other] at outcome
      exact ⟨result', rfl, outcome⟩
  obtain ⟨c, result, analyzed, ran, count⟩ := collector_compiles
  have compiled := compile_eq_ok_iff.mpr ⟨c, analyzed, ran⟩
  obtain ⟨result', compiled', alike⟩ := follows .collector .movedCollector (fun _ => none)
    (fun node => some (node + 1)) rfl compiled
  exact ⟨result, result', compiled, count, compiled', alike⟩

end AccScript
