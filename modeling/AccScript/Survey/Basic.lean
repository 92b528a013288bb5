import AccScript.Module.Record
import AccScript.Options
import AccScript.Scope.Lookup
import AccScript.Source.Names

/-!
# Surveys

A survey is what one walk over a program finds out: the tree of scopes with their declarations,
the facts about every function and class, the import and export tables, and every use of a name
in the scope it is resolved from.
-/

namespace AccScript

/-- The names of one parameter; those of a pattern are flattened. -/
inductive ParameterNames where
  | single (name : String)
  | pattern (names : List String)
deriving DecidableEq, Repr

def ParameterNames.ofTarget : BindingTarget → ParameterNames
  | .identifier identifier => .single identifier.name
  | .pattern p => .pattern (p.boundNames.map Identifier.name)

/-- What a survey knows about a function. -/
structure FunctionFacts where
  scope : ScopeId
  /-- The scope of the body, if it is a block. -/
  bodyScope : Option ScopeId
  /-- The declared or inferred name; empty if there is none. -/
  name : String
  /-- The number of parameters before a default or a rest parameter. -/
  length : Nat
  parameters : List ParameterNames
  /-- Every name that a parameter binds. -/
  parameterNames : List String
  /-- The place in the order of discovery, from one on. -/
  sequence : Nat
  kind : FunctionKind
  /-- The class whose constructor this is. -/
  owner : Option NodeId
  isDefaultExport : Bool
deriving DecidableEq, Repr

/-- The constructor made for a class that declares none. -/
structure DefaultConstructor where
  function : NodeId
  /-- The rest parameter, if the class has a super class. -/
  restParameter : Option NodeId
deriving DecidableEq, Repr

structure Survey where
  tree : ScopeTree
  moduleRecord : Option ModuleRecord
  functions : OrderedMap NodeId FunctionFacts := []
  /-- The functions in the order of their discovery. -/
  functionOrder : Array NodeId := #[]
  /-- How many functions have a name. -/
  nameCounts : NameMap Nat := [("main", 1)]
  defaultConstructors : OrderedMap NodeId DefaultConstructor := []
  /-- The constructor of each class, declared or made. -/
  classConstructors : OrderedMap NodeId NodeId := []
  /-- The name that a class has in its own scope. -/
  classBindings : OrderedMap ScopeId String := []
  /-- The classes with a super class. -/
  derivedClasses : List NodeId := []
  /-- The bindings that hold the computed keys of instance fields. -/
  computedFieldKeys : OrderedMap NodeId String := []
  /-- Every use of a name, in the order of the walk. -/
  references : Array Reference := #[]
  /-- Exports of names of the module, decided once all imports are known. -/
  pendingExports : List (String × String) := []
  nextNodeId : Nat

namespace Survey

def functionFacts (survey : Survey) (node : NodeId) : Except Failure FunctionFacts :=
  match survey.functions.get? node with
  | some facts => .ok facts
  | none => .error (.internal ("no function recorded for node " ++ toString node))

def scopeOf (survey : Survey) (node : NodeId) : Except Failure ScopeId :=
  match survey.tree.scopeOfNode? node with
  | some scope => .ok scope
  | none => .error (.internal ("no scope recorded for node " ++ toString node))

def countName (counts : NameMap Nat) (name : String) : NameMap Nat :=
  if name.isEmpty then counts else counts.insert name ((counts.get? name).getD 0 + 1)

def register (survey : Survey) (node : NodeId) (facts : FunctionFacts) : Survey :=
  { survey with
    functionOrder := survey.functionOrder.push node
    nameCounts := countName survey.nameCounts facts.name
    functions :=
      survey.functions.insert node { facts with sequence := survey.functionOrder.size + 1 } }

/-- The survey before the walk. -/
def start (program : Program) (options : Options) : Survey where
  tree := .ofRoot (if options.esModule then .esModule else .global) program.id
  moduleRecord := if options.esModule then some {} else none
  nextNodeId := program.nextNodeId

/-- Marks what the module exports among the declarations of the root. -/
def markExports (t : ScopeTree) (exported : List String) : ScopeTree :=
  t.modifyScope ScopeTree.rootId fun scope =>
    { scope with
      decls := scope.decls.map fun decl =>
        if decl.name ∈ exported ∧ decl.role = .notModule then { decl with role := .exported }
        else decl
      variableScope := scope.variableScope.map fun data =>
        { data with
          hoisted := data.hoisted.map fun decl =>
            if decl.name ∈ exported then { decl with role := .exported } else decl } }

/-- Decides the pending exports of a module. -/
def finishExports (survey : Survey) : Survey :=
  match survey.moduleRecord with
  | none => survey
  | some record =>
      let record := survey.pendingExports.foldl
        (fun record (localName, exported) => record.addExportOfLocalName localName exported)
        record
      { survey with
        moduleRecord := some record
        pendingExports := []
        tree := markExports survey.tree (record.localExports.map LocalExport.localName) }

end Survey

abbrev Walk := StateT Survey (Except Failure)

/-- A name that an anonymous function or class can take from its context. -/
inductive NameHint where
  | none
  | name (name : String)
  | defaultExport
deriving DecidableEq, Repr

def NameHint.ofName? : Option String → NameHint
  | some n => .name n
  | Option.none => .none

def NameHint.ofExport : ExportKind → NameHint
  | .default => .defaultExport
  | _ => .none

namespace Walk

def modifyTree (f : ScopeTree → ScopeTree) : Walk Unit :=
  modify fun survey => { survey with tree := f survey.tree }

def addScope (kind : ScopeKind) (node : NodeId) (parent : ScopeId) : Walk ScopeId :=
  modifyGet fun survey =>
    (survey.tree.scopes.size, { survey with tree := survey.tree.addScope kind node (some parent) })

def addDecl (scope : ScopeId) (decl : Decl) : Walk Unit :=
  modifyTree (·.addDecl scope decl)

/-- A node identity that no node of the program has; identities are 32-bit words. -/
def freshNodeId : Walk NodeId := do
  let survey ← get
  if survey.nextNodeId + 1 < 0x100000000 then
    set { survey with nextNodeId := survey.nextNodeId + 1 }
    return survey.nextNodeId
  else throw .unmet

def isModuleRoot (scope : ScopeId) : Walk Bool := do
  return scope = ScopeTree.rootId && (← get).tree.kindIs (· = .esModule) scope

def modifyRecord (position : Position) (f : ModuleRecord → ModuleRecord) : Walk Unit := do
  let survey ← get
  match survey.moduleRecord with
  | some record => set { survey with moduleRecord := some (f record) }
  | none => throw (.unsupported "module syntax outside of a module" position)

/-- Records a use of a name. A use of `arguments` is noted with the function it belongs to. -/
def addReference (scope : ScopeId) (name : String) (isAssignment : Bool) : Walk Unit := do
  if name = HiddenName.arguments then
    let tree := (← get).tree
    let owner := tree.nearestNonArrowScope scope
    if tree.kindIs (· = .function) owner then
      modifyTree (·.modifyVariableScope owner fun data => { data with usesArguments := true })
  modify fun survey =>
    { survey with references := survey.references.push ⟨scope, name, isAssignment⟩ }

/-- Adds a declaration to the hoisted ones of a variable scope. A `var` with the name of a
parameter is none, nor are the names of the global object at the top of a script. -/
def hoist (scope : ScopeId) (decl : Decl) : Walk Unit := do
  let survey ← get
  match survey.tree.scope? scope with
  | none => throw .unmet
  | some data =>
      let isParameter := data.kind = .function && decl.kind = .var &&
        match survey.functions.get? data.node with
        | some facts => facts.parameterNames.contains decl.name
        | none => false
      let isGlobal := data.kind = .global && HiddenName.globals.contains decl.name
      if !isParameter && !isGlobal then modifyTree (·.addHoisted scope decl)

/-- Declares a name bound by a declaration, and hoists a `var`. -/
def declare (scope : ScopeId) (kind : DeclKind) (role : ModuleRole)
    (identifier : Identifier) : Walk Unit := do
  let decl : Decl := { name := identifier.name, node := identifier.id, kind, role }
  addDecl scope decl
  if kind = .var then
    hoist ((← get).tree.nearestVariableScope scope) decl

def registerFunction (node : NodeId) (facts : FunctionFacts) : Walk Unit :=
  modify (·.register node facts)

/-- Records the export of a declaration, which must be at the root of a module. -/
def exportDeclaration (scope : ScopeId) (name : Option String) (kind : ExportKind)
    (position : Position) : Walk Unit := do
  match kind with
  | .none => pure ()
  | kind =>
      if !(← isModuleRoot scope) then
        throw (.unsupported "export outside of a module" position)
      match kind, name with
      | .default, name =>
          modifyRecord position
            (·.addLocalExport (name.getD HiddenName.defaultExport) "default")
      | _, some name => modifyRecord position (·.addLocalExport name name)
      | _, none => throw (.unsupported "exported declaration without a name" position)

/-- The names of an import with the role of their bindings. -/
def importDecls (declaration : ImportDeclaration) : List Decl :=
  (declaration.defaultBinding.toList.map fun binding =>
    { name := binding.name, node := binding.id, kind := .const, role := .imported }) ++
  (declaration.namespaceBinding.toList.map fun binding =>
    { name := binding.name, node := binding.id, kind := .const }) ++
  ((declaration.namedBindings.getD []).map fun specifier =>
    { name := specifier.localName.name, node := specifier.id, kind := .const
      role := .imported })

def importEntries (declaration : ImportDeclaration) (record : ModuleRecord) : ModuleRecord :=
  let request := declaration.request
  let record := match declaration.defaultBinding with
    | some binding => record.addRegularImport binding.name "default" request
    | none => record
  let record := match declaration.namespaceBinding with
    | some binding => record.addNamespaceImport binding.name request
    | none => record
  match declaration.namedBindings with
  | some specifiers =>
      if specifiers.isEmpty then record.addRequest request
      else specifiers.foldl
        (fun record specifier =>
          record.addRegularImport specifier.localName.name specifier.imported request)
        record
  | none =>
      if declaration.defaultBinding.isNone && declaration.namespaceBinding.isNone then
        record.addRequest request
      else record

def addImport (scope : ScopeId) (declaration : ImportDeclaration) (position : Position) :
    Walk Unit := do
  modifyRecord position (importEntries declaration)
  (importDecls declaration).forM (addDecl scope)

def addExport (declaration : ExportDeclaration) (position : Position) : Walk Unit :=
  match declaration.request, declaration.specifiers with
  | some request, none => modifyRecord position (·.addStarExport request)
  | some request, some specifiers =>
      modifyRecord position fun record =>
        if specifiers.isEmpty then record.addRequest request
        else specifiers.foldl
          (fun record specifier =>
            record.addIndirectExport specifier.exported specifier.localName request)
          record
  | none, some specifiers =>
      modify fun survey =>
        { survey with
          pendingExports := survey.pendingExports ++
            specifiers.map fun specifier => (specifier.localName, specifier.exported) }
  | none, none => throw (.internal "export declaration without specifiers or request")

/-- Refuses an import or export anywhere but at the root of a module. -/
def requireModuleRoot (scope : ScopeId) (construct : String) (position : Position) :
    Walk Unit := do
  if !(← isModuleRoot scope) then throw (.unsupported construct position)

/-- Binds the name of a function declaration: hoisted at the root and in a function body, local
to any other block. -/
def declareFunction (scope : ScopeId) (decl : Decl) : Walk Unit := do
  let tree := (← get).tree
  match tree.scope? scope with
  | none => throw .unmet
  | some data =>
      let inFunctionBody := data.kind = .block &&
        match data.parent with
        | some parent => tree.kindIs (· = .function) parent
        | none => false
      match data.kind with
      | .global | .esModule =>
          hoist scope decl
          addDecl scope decl
      | _ =>
          if inFunctionBody then
            modifyTree (·.addHoisted (tree.nearestVariableScope scope) decl)
          else addDecl scope decl

def addDefaultConstructor (node : NodeId) (isDerived : Bool) (classScope : ScopeId)
    (className : String) : Walk ScopeId := do
  let function ← freshNodeId
  let functionScope ← addScope .function function classScope
  let body ← freshNodeId
  let bodyScope ← addScope .block body functionScope
  let restParameter ← if isDerived then some <$> freshNodeId else pure none
  registerFunction function
    { scope := functionScope
      bodyScope := some bodyScope
      name := className
      length := 0
      parameters := if isDerived then [.single "args"] else []
      parameterNames := if isDerived then ["args"] else []
      sequence := 0
      kind := .constructor
      owner := some node
      isDefaultExport := false }
  modify fun survey =>
    { survey with
      defaultConstructors := survey.defaultConstructors.insert node ⟨function, restParameter⟩
      classConstructors := survey.classConstructors.insert node function }
  return functionScope

def bindFieldKey (member : NodeId) (key : Expr) (classScope constructorScope : ScopeId) :
    Walk Unit :=
  match key.kind with
  | .string _ | .number _ => pure ()
  | _ => do
      let name := toString member ++ "fieldKey"
      addDecl classScope { name, node := member, kind := .const }
      addReference constructorScope name false
      modify fun survey =>
        { survey with computedFieldKeys := survey.computedFieldKeys.insert member name }

end Walk

end AccScript
