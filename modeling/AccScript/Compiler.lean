import AccScript.Lower.Unit

/-!
# The compiler

Compiles a program unit by unit. Every unit is compiled once: a function that stands in a copied
finalizer is met again with each copy. Units come in post-order, the program root last.
-/

namespace AccScript

/-- What the compilation of all units shares. -/
structure CompileContext where
  program : Program
  options : Options
  survey : Survey
  /-- The internal name of each unit. -/
  names : OrderedMap NodeId String

/-- The units so far. -/
structure Progress where
  /-- The tables of the program, in the assembler of the last unit. -/
  assembler : Assembler
  /-- The nodes whose units have been met. -/
  met : List NodeId := []
  units : Array CompiledUnit := #[]

abbrev Compile := StateT Progress (Except Failure)

namespace CompileContext

/-- The environment that the code of a unit starts in. -/
def env (c : CompileContext) (source : UnitSource) (scope : ScopeId) : Env :=
  let env : Env :=
    { survey := c.survey, options := c.options, names := c.names
      scope, functionScope := scope
      isStrict := source.isStrict c.program c.options }
  { env with fieldInit := Lower.fieldInitOf source.owner? env }

def unitName (c : CompileContext) (node : NodeId) : Except Failure String :=
  match c.names.get? node with
  | some name => .ok name
  | none => .error (.internal ("unit " ++ toString node ++ " has no internal name"))

def assemble (c : CompileContext) (assembler : Assembler) (source : UnitSource) :
    Except Failure Assembler := do
  let scope ← c.survey.scopeOf (source.node c.program)
  let ((), assembler) ←
    (Lower.unitCode c.program source (c.env source scope)).run assembler.nextUnit
  return assembler

/-- The number of parameters of a unit. -/
def parameterCount (c : CompileContext) (node : NodeId) : Except Failure Nat := do
  let scope ← c.survey.scopeOf node
  let data ← orBroken (c.survey.tree.variableScope? scope)
  return data.parameters.length

def variableRows (c : CompileContext) (unit : AssembledUnit) : List VariableRow :=
  if c.options.debugMode then
    c.survey.tree.variableTable unit.scopeRanges unit.locals.get? fun v => v ∈ unit.initialized
  else []

/-- The finished unit, with its positions. -/
def annotate (c : CompileContext) (source : UnitSource) (name : String) (parameterCount : Nat)
    (unit : AssembledUnit) : Except Failure CompiledUnit := do
  let code ← Emitted.annotate (source.position c.program) c.options.debugMode unit.code
  return {
    name, parameterCount, code
    registerCount := unit.registerCount
    catchTables := unit.catchTables
    variableRows := c.variableRows unit }

/-- Compiles a unit after the units that it defines. `depth` bounds how deep units lie in each
other; a unit that has been met before takes a level too. -/
def compileUnit (c : CompileContext) : Nat → UnitSource → Compile Unit
  | 0, _ => throw .unmet
  | depth + 1, source => do
      let node := source.node c.program
      if node ∈ (← get).met then pure ()
      else
        modify fun p => { p with met := node :: p.met }
        let name ← c.unitName node
        let assembler ← c.assemble (← get).assembler source
        let parameterCount ← c.parameterCount node
        let unit ← assembler.finish
        modify fun p => { p with assembler }
        assembler.units.toList.forM (c.compileUnit depth)
        let compiled ← c.annotate source name parameterCount unit
        modify fun p => { p with units := p.units.push compiled }

/-- One level for each function, one for the program, and one to meet a unit again. -/
def depth (c : CompileContext) : Nat :=
  c.survey.functionOrder.size + 2

def run (c : CompileContext) : Except Failure CompiledProgram := do
  let ((), p) ← (c.compileUnit c.depth .program).run { assembler := .ofOptions c.options }
  return {
    units := p.units.toList
    strings := p.assembler.strings
    literals := p.assembler.literals.toList
    moduleRecord := c.survey.moduleRecord }

def ofProgram (program : Program) (options : Options) (types : TypeTable) :
    Except Failure CompileContext := do
  let survey ← Survey.analyze program options types
  return { program, options, survey, names := survey.internalNames program }

end CompileContext

def compile (program : Program) (options : Options) (types : TypeTable) :
    Except CompileError CompiledProgram :=
  (do (← CompileContext.ofProgram program options types).run).mapError Failure.toCompileError

end AccScript
