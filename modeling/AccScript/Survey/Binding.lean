import AccScript.Survey.Basic

/-!
# Variables for declarations

Once a program is surveyed, every scope gets its variables, in the order of the scopes. A variable
scope binds its parameters and its hoisted declarations first; every scope then binds what it
declares besides.
-/

namespace AccScript

abbrev TypeTable := NodeId → Option Nat

namespace Survey

def addParameter (survey : Survey) (scope : ScopeId) (name : String) (kind : VarKind)
    (isImplicit isVisible : Bool) : Survey :=
  { survey with tree := (survey.tree.addParameter scope name kind isImplicit isVisible).2 }

def bindParameter (scope : ScopeId) (survey : Survey) (index : Nat) :
    ParameterNames → Survey
  | .single name => survey.addParameter scope name .var false true
  | .pattern names =>
      let survey := survey.addParameter scope (toString index ++ "pattern") .var true true
      { survey with
        tree := names.foldl (fun t name => (t.add scope name .var .notModule).2) survey.tree }

/-- Whether a function has a variable `arguments`. -/
def bindsArguments (survey : Survey) (scope : ScopeId) (options : Options) : Bool :=
  match survey.tree.variableScope? scope with
  | some data => data.usesArguments || (options.debugMode && !data.isArrow)
  | none => false

def bindFunctionParameters (survey : Survey) (options : Options) (scope : ScopeId)
    (facts : FunctionFacts) : Survey :=
  let survey := facts.parameters.zipIdx.foldl
    (fun survey (parameter, index) => survey.bindParameter scope index parameter) survey
  if survey.bindsArguments scope options then
    let (v, tree) := survey.tree.add scope HiddenName.arguments .const .notModule
    { survey with
      tree := tree.modifyVariable v fun data => { data with startsInitialized := true } }
  else survey

/-- Binds the parameters of a variable scope, the hidden ones first. Arrow functions do not see
their own. -/
def bindParameters (survey : Survey) (options : Options) (id : ScopeId) (scope : Scope) :
    Except Failure Survey :=
  let isVisible := !scope.isArrowFunction
  let survey := [HiddenName.funcObj, HiddenName.newTarget, HiddenName.this].foldl
    (fun survey name => survey.addParameter id name .const true isVisible) survey
  match scope.kind with
  | .global =>
      .ok <| if options.commonjs then
        HiddenName.commonjs.foldl
          (fun survey name => survey.addParameter id name .let false true) survey
      else survey
  | .function =>
      match survey.functions.get? scope.node with
      | some facts => .ok (survey.bindFunctionParameters options id facts)
      | none =>
          .error (.internal ("function scope " ++ toString id ++ " has no function info"))
  | _ => .ok survey

/-- The slot of an imported or exported binding. -/
def moduleSlot (survey : Survey) (decl : Decl) : Except Failure Nat :=
  match survey.moduleRecord with
  | none => .error (.internal "module variable without a module record")
  | some record =>
      let index := match decl.role with
        | .exported => record.localExportIndex? decl.name
        | .imported => record.regularImportIndex? decl.name
        | .notModule => none
      match index with
      | some index => .ok index
      | none => .error (.internal ("no module slot for '" ++ decl.name ++ "'"))

def declaredStorage (survey : Survey) (decl : Decl) : Storage → Except Failure Storage
  | .module index isExternal =>
      if decl.role = .notModule then .ok (.module index isExternal)
      else return .module (← survey.moduleSlot decl) isExternal
  | other => .ok other

def addVariable (survey : Survey) (typeOf : NodeId → Nat) (scope : ScopeId) (decl : Decl)
    (kind : VarKind) : Except Failure (VariableId × Survey) := do
  let (v, tree) := survey.tree.add scope decl.name kind decl.role
  let data ← orBroken (tree.var? v)
  let storage ← survey.declaredStorage decl data.storage
  return (v, { survey with
    tree := tree.modifyVariable v fun data =>
      { data with storage, typeIndex := typeOf decl.node } })

def bindHoisted (survey : Survey) (typeOf : NodeId → Nat) (scope : ScopeId)
    (decl : Decl) : Except Failure Survey := do
  let kind ← match decl.kind with
    | .var => pure VarKind.var
    | .function => pure VarKind.function
    | other =>
        throw (.internal ("hoisted declaration '" ++ decl.name ++ "' has kind " ++
          other.describe))
  return (← survey.addVariable typeOf scope decl kind).2

/-- Binds a declaration that is not hoisted. Of the `var` names only those of the global object
are left. -/
def bindDecl (survey : Survey) (typeOf : NodeId → Nat) (scope : ScopeId) (decl : Decl) :
    Except Failure Survey := do
  match decl.kind with
  | .let | .catchParameter => return (← survey.addVariable typeOf scope decl .let).2
  | .const =>
      let (v, survey) ← survey.addVariable typeOf scope decl .const
      if (survey.computedFieldKeys.get? decl.node).isSome then
        return { survey with
          tree := survey.tree.modifyVariable v fun data =>
            { data with startsInitialized := true } }
      else return survey
  | .function => return (← survey.addVariable typeOf scope decl .function).2
  | .cls =>
      let target ← if decl.isExpression then survey.scopeOf decl.node else pure scope
      return (← survey.addVariable typeOf target decl .cls).2
  | .var =>
      if HiddenName.globals.contains decl.name then
        return (← survey.addVariable typeOf scope decl .var).2
      else return survey

def bindScope (options : Options) (typeOf : NodeId → Nat) (survey : Survey) (id : ScopeId) :
    Except Failure Survey := do
  let scope ← orBroken (survey.tree.scope? id)
  let hoisted := (scope.variableScope.map VariableScope.hoisted).getD []
  let survey ←
    if scope.kind.isVariableScope then survey.bindParameters options id scope else pure survey
  let survey ← hoisted.foldlM (fun survey decl => survey.bindHoisted typeOf id decl) survey
  let nodes := hoisted.map Decl.node
  (scope.decls.filter fun decl => !nodes.contains decl.node).foldlM
    (fun survey decl => survey.bindDecl typeOf id decl) survey

def bind (survey : Survey) (program : Program) (options : Options) (types : TypeTable) :
    Except Failure Survey :=
  let typeOf (node : NodeId) : Nat := (types (program.typedNode node)).getD 0
  (List.range survey.tree.scopes.size).foldlM (bindScope options typeOf) survey

end Survey

end AccScript
