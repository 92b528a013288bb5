import AccScript.Lower.Statement

/-!
# Lowering of units

A unit is the program root, a function or the constructor of a class that declares none. Its code
starts with a prologue: parameters get their registers, captured ones are copied to the
environment, and hoisted declarations are initialized.
-/

namespace AccScript

namespace UnitSource

def node (program : Program) : UnitSource → NodeId
  | .program => program.id
  | .function f _ _ => f.id
  | .defaultConstructor _ id => id

def position (program : Program) : UnitSource → Position
  | .program => program.position
  | .function f _ _ => f.position
  | .defaultConstructor owner _ => owner.position

def owner? : UnitSource → Option ClassNode
  | .program => none
  | .function _ owner _ => owner
  | .defaultConstructor owner _ => some owner

def isStrict (program : Program) (options : Options) : UnitSource → Bool
  | .program => options.strict || program.isStrict
  | .function _ _ isStrict => options.strict || isStrict
  | .defaultConstructor _ _ => true

end UnitSource

namespace Lower

open Asm

/-! ## The prologue -/

def copyCaptured (parameter : VariableId) : Lower Unit := do
  match (← variableData parameter).slot with
  | some slot =>
      lda (← registerFor parameter)
      storeSlotOf parameter 0 slot
  | none => pure ()

def bindParameters : Lower Unit := do
  let env ← read
  let parameters := (← unitVariableScope).parameters
  parameters.forM fun parameter => do
    let _ ← bindParameter parameter
  let data ← orBroken (env.tree.scope? env.functionScope)
  match data.env.filter LexicalEnv.isNeeded with
  | some slots => enterEnvironment env.functionScope slots.slotNames
  | none => pure ()
  sequence (parameters.map copyCaptured)

/-- A variable that the unit's own scope binds. -/
def ownVariable? (name : String) : Lower (Option (VariableId × Variable)) := do
  let env ← read
  match env.tree.findLocal? env.functionScope name with
  | some v => return some (v, ← variableData v)
  | none => return none

/-- Initializes a hoisted `var`. Parameters and functions of the same name win. -/
def initializeVar (isGlobal : Bool) (decl : Decl) : Lower Unit := do
  if decl.kind = .var then
    match ← ownVariable? decl.name with
    | some (_, data) =>
        if data.kind = .var && !data.isParameter then
          constant .undefined
          if isGlobal then globalAccess .storeVar decl.name else declareVariable decl.name
    | none => pure ()

def hoistFunction (statement : Statement) : Lower Unit :=
  match statement.kind with
  | .functionDecl f exportKind =>
      match declaredName? f.name exportKind with
      | some name => bindFunction name f statement.position
      | none => pure ()
  | _ => pure ()

/-- Initializes hoisted variables and functions. -/
def hoistDeclarations (statements : List Statement) : Lower Unit := do
  let env ← read
  let data ← unitVariableScope
  let isGlobal := env.tree.kindIs (· = .global) env.functionScope
  sequence (data.hoisted.map (initializeVar isGlobal))
  sequence (statements.map hoistFunction)

/-! ## Bodies -/

/-- The failure of a statement that keeps temporaries. -/
def stillLive (count : Nat) (position : Position) : Failure :=
  .internal (toString count ++ " temporary register(s) still live after the statement at " ++
    toString position.line ++ ":" ++ toString position.column)

def topStatement (statement : Statement) : Lower Unit := do
  statement.lower
  let live := (← get).liveTemps
  if live ≠ 0 then throw (stillLive live statement.position)

def topStatements (statements : List Statement) : Lower Unit :=
  sequence (statements.map topStatement)

/-- Returns `this` at the end of a constructor. -/
def returnThis : Lower Unit := do
  loadVariable HiddenName.this
  if (← read).inDerivedConstructor then requireThis
  emit .return

/-- What follows the last statement of a function. -/
def fallOff (kind : FunctionKind) : Lower Unit := do
  if !(← isTerminated) then
    if kind = .constructor then returnThis else emit .returnUndefined

/-- A unit: its parameters, then its code, which a debugger sees as one scope. -/
def unitFrame (code : Lower Unit) : Lower Unit := do
  setOrigin .functionStart
  bindParameters
  enterScope (← read).functionScope
  code
  exitScope

/-! ## Programs -/

def bindNamespaces (index : Nat) : List NamespaceImport → Lower Unit
  | [] => pure ()
  | entry :: rest => do
      emit (.getModuleNamespace index)
      declareVariable entry.localName
      bindNamespaces (index + 1) rest

/-- The code of a program root. -/
def programBody (program : Program) : Lower Unit := do
  match (← read).survey.moduleRecord with
  | some record => bindNamespaces 0 record.namespaceImports
  | none => pure ()
  hoistDeclarations program.statements
  topStatements program.statements
  if !(← isTerminated) then emit .returnUndefined

/-! ## Functions -/

def bindOwnName (f : FunctionNode) : Lower Unit := do
  match f.isExpression, f.name with
  | true, some identifier =>
      match ← ownVariable? identifier.name with
      | some (v, data) =>
          if data.kind = .function && !data.isParameter then
            loadVariable HiddenName.funcObj
            declareLocal v
      | none => pure ()
  | _, _ => pure ()

/-- The object of all arguments, for a function that uses it. -/
def bindArguments : Lower Unit := do
  match ← ownVariable? HiddenName.arguments with
  | some (v, data) =>
      if data.kind = .const && !data.isParameter then
        emit .getUnmappedArgs
        declareLocal v
  | none => pure ()

def defaultParameter (v : VariableId) (default : Expr) : Lower Unit := do
  let hasValue ← freshLabel
  isUndefined (loadLocal v)
  emit (.jeqz hasValue)
  default.lower
  declareLocal v
  label hasValue

def parameterValue (index : Nat) (v : VariableId) (p : Parameter) : Lower Unit := do
  if p.isRest then
    emit (.copyRestArgs index)
    declareLocal v
  else
    match p.default with
    | some default => defaultParameter v default
    | none => pure ()

def initializeParameter (index : Nat) (v : VariableId) (p : Parameter) : Lower Unit := do
  atPosition p.position
  parameterValue index v p
  match p.target with
  | .pattern pattern =>
      let value ← getTemp
      loadLocal v
      sta value
      pattern.lower .declare value
      freeTemps [value]
  | .identifier _ => pure ()

def initializeParametersFrom (index : Nat) : List (VariableId × Parameter) → Lower Unit
  | [] => pure ()
  | (v, p) :: rest => do
      initializeParameter index v p
      initializeParametersFrom (index + 1) rest

/-- Initializes the parameters of the source, which follow the hidden ones. -/
def initializeParameters (parameters : List Parameter) : Lower Unit := do
  let bound := (← unitVariableScope).parameters
  if bound.length < parameters.length then
    throw (.internal "function has fewer bound parameters than declared")
  let hidden := bound.length - parameters.length
  initializeParametersFrom 0 ((bound.drop hidden).zip parameters)

def ownFields (f : FunctionNode) (owner : Option ClassNode) : Lower Unit := do
  match f.kind, owner with
  | .constructor, some c =>
      if !(← read).survey.derivedClasses.contains c.id then
        initializeFields (ClassMember.lowerEach c.members)
  | _, _ => pure ()

def functionBody (f : FunctionNode) (owner : Option ClassNode) : Lower Unit :=
  match f.body with
  | .block block => do
      hoistDeclarations block.statements
      ownFields f owner
      inVisibleScope block.id (topStatements block.statements)
      fallOff f.kind
  | .expression value => do
      value.lower
      emit .return

def functionCode (f : FunctionNode) (owner : Option ClassNode) : Lower Unit := do
  bindOwnName f
  bindArguments
  initializeParameters f.parameters
  functionBody f owner

/-! ## Default constructors -/

/-- Hands all arguments on to the super constructor. -/
def forwardArguments : Lower Unit := do
  match (← unitVariableScope).parameters.getLast? with
  | none => throw (.internal "derived default constructor has no rest parameter")
  | some rest =>
      emit (.copyRestArgs 0)
      declareLocal rest
      let arguments ← getTemp
      let index ← getTemp
      emit .createEmptyArray
      sta arguments
      loadNat 0
      sta index
      loadLocal rest
      emit (.stArraySpread arguments index)
      superSpread arguments
      freeTemps [arguments, index]
      bindSuperResult

def defaultConstructorBody (c : ClassNode) : Lower Unit := do
  atPosition c.position
  if c.superClass.isSome then forwardArguments
  else initializeFields (ClassMember.lowerEach c.members)
  returnThis

/-! ## Units -/

def unitCode (program : Program) : UnitSource → Lower Unit
  | .program => unitFrame (programBody program)
  | .function f owner _ => unitFrame (functionCode f owner)
  | .defaultConstructor owner _ => unitFrame (defaultConstructorBody owner)

/-- What follows `super(...)` in the constructor of a class. A field initializer is no place for
another `super(...)`. -/
def fieldInitOf (owner : Option ClassNode) (env : Env) : Code :=
  match owner with
  | some c =>
      initializeFields (ClassMember.lowerEach c.members) { env with fieldInit := throw .unmet }
  | none => pure ()

end Lower

end AccScript
