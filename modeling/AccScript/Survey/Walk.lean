import AccScript.Survey.Basic

/-!
# The walk over a program

Every scope is created when the walk enters its node, so scopes come in the order of the source,
and every name is recorded in the scope from which the code for it is emitted.
-/

namespace AccScript.Walk

/-- The name of a function: constructors have that of their class, others their own or the one
that the context suggests. -/
def functionName (f : FunctionNode) (hint : NameHint) (owner : Option (NodeId × String)) :
    String :=
  if f.kind = .constructor then (owner.map Prod.snd).getD ""
  else match f.name with
    | some identifier => identifier.name
    | none =>
        match hint with
        | .name name => if name = "__proto__" then "" else name
        | _ => ""

/-- What is known about a function when the walk enters it. -/
def initialFacts (f : FunctionNode) (scope : ScopeId) (hint : NameHint)
    (owner : Option (NodeId × String)) : FunctionFacts where
  scope
  bodyScope := none
  name := functionName f hint owner
  length := f.parameterLength
  parameters := f.parameters.map fun p => .ofTarget p.target
  parameterNames := f.parameters.flatMap fun p => p.target.boundNames.map Identifier.name
  sequence := 0
  kind := f.kind
  owner := owner.map Prod.fst
  isDefaultExport := hint = .defaultExport

def exportRole : ExportKind → ModuleRole
  | .none => .notModule
  | .named | .default => .exported

def classBindingName? (c : ClassNode) (hint : NameHint) : Option String :=
  match c.name with
  | some identifier => some identifier.name
  | none =>
      if hint = .defaultExport ∧ ¬ c.isExpression then some HiddenName.defaultExport else none

def className (c : ClassNode) (hint : NameHint) : String :=
  match c.name with
  | some identifier => identifier.name
  | none =>
      match hint with
      | .name name => name
      | _ => ""

def declareSelf (scope : ScopeId) (id : NodeId) (isExpression : Bool) (name : Option Identifier) :
    Walk Unit :=
  match isExpression, name with
  | true, some identifier =>
      addDecl scope
        { name := identifier.name, node := id, kind := .function, isExpression := true }
  | _, _ => pure ()

/-- Notes whether a class has a super class. -/
def noteDerived (id : NodeId) (isDerived : Bool) : Walk Unit :=
  if isDerived then
    modify fun survey => { survey with derivedClasses := insertNew survey.derivedClasses id }
  else pure ()

def noteClassName (classScope : ScopeId) : Option Identifier → Walk Unit
  | some identifier =>
      modify fun survey =>
        { survey with classBindings := survey.classBindings.insert classScope identifier.name }
  | none => pure ()

def declareClass (scope : ScopeId) (role : ModuleRole) (hint : NameHint) (c : ClassNode) :
    Walk Unit :=
  match classBindingName? c hint with
  | some name =>
      addDecl scope { name, node := c.id, kind := .cls, role, isExpression := c.isExpression }
  | none => pure ()

def bindMemberKey (id : NodeId) (key : PropertyKey) (isStatic : Bool) (kind : MemberKind)
    (classScope constructorScope : ScopeId) : Walk Unit :=
  match key, kind, isStatic with
  | .computed key, .field _, false => bindFieldKey id key classScope constructorScope
  | _, _, _ => pure ()

def declKind : DeclarationKind → DeclKind
  | .var => .var
  | .let => .let
  | .const => .const

/-- The hint that a bound identifier gives to its value. -/
def targetHint : BindingTarget → NameHint
  | .identifier identifier => .name identifier.name
  | .pattern _ => .none

def fieldHint : PropertyKey → NameHint
  | .identifier name | .string name => .name name
  | _ => .none

def assignmentHint : Option BinaryOp → AssignmentTarget → NameHint
  | none, .simple ⟨_, .identifier name⟩ => .name name
  | _, _ => .none

mutual

def walkExpr (scope : ScopeId) (hint : NameHint) : Expr → Walk Unit
  | ⟨position, kind⟩ => walkExprKind scope hint position kind
termination_by structural e => e

def walkExprKind (scope : ScopeId) (hint : NameHint) (position : Position) :
    ExprKind → Walk Unit
  | .number _ | .bigInt _ | .string _ | .boolean _ | .null | .regExp _ _ => pure ()
  | .this => addReference scope HiddenName.this false
  | .newTarget => addReference scope HiddenName.newTarget false
  | .template _ parts => walkExprs scope parts
  | .taggedTemplate tag _ _ parts => do
      walkExpr scope .none tag
      walkExprs scope parts
  | .identifier name => addReference scope name false
  | .array elements => walkElements scope elements
  | .object properties => walkProperties scope properties
  | .member object _ => walkExpr scope .none object
  | .computedMember object property => do
      walkExpr scope .none object
      walkExpr scope .none property
  | .superMember _ => addReference scope HiddenName.this false
  | .superComputedMember property => do
      addReference scope HiddenName.this false
      walkExpr scope .none property
  | .call callee arguments => do
      walkExpr scope .none callee
      walkExprs scope arguments
  | .construct callee arguments => do
      walkExpr scope .none callee
      walkExprs scope arguments
  | .superCall arguments => do
      walkExprs scope arguments
      addReference scope HiddenName.funcObj false
      addReference scope HiddenName.this true
  | .spread inner => walkExpr scope .none inner
  | .unary _ operand => walkExpr scope .none operand
  | .function f => do
      let _ ← walkFunction scope hint none f
  | .classExpr c => walkClass scope .notModule hint c
  | .update _ _ target => walkExpr scope .none target
  | .binary _ lhs rhs => do
      walkExpr scope .none lhs
      walkExpr scope .none rhs
  | .logical _ lhs rhs => do
      walkExpr scope .none lhs
      walkExpr scope .none rhs
  | .assignment op target value => do
      walkAssignmentTarget scope target
      walkExpr scope (assignmentHint op target) value
  | .conditional test consequent alternate => do
      walkExpr scope .none test
      walkExpr scope .none consequent
      walkExpr scope .none alternate
  | .sequence items => walkExprs scope items
  | .yield _ => throw (.unsupported "yield" position)
  | .await _ => throw (.unsupported "await" position)
termination_by structural kind => kind

def walkExprs (scope : ScopeId) : List Expr → Walk Unit
  | [] => pure ()
  | e :: rest => do
      walkExpr scope .none e
      walkExprs scope rest
termination_by structural items => items

def walkElements (scope : ScopeId) : List (Option Expr) → Walk Unit
  | [] => pure ()
  | element :: rest => do
      walkOptExpr scope .none element
      walkElements scope rest
termination_by structural elements => elements

def walkOptExpr (scope : ScopeId) (hint : NameHint) : Option Expr → Walk Unit
  | none => pure ()
  | some e => walkExpr scope hint e
termination_by structural e => e

/-- An assigned name is a use of its own kind; any other target is an expression. -/
def walkTargetExpr (scope : ScopeId) : Expr → Walk Unit
  | ⟨_, .identifier name⟩ => addReference scope name true
  | ⟨position, kind⟩ => walkExprKind scope .none position kind
termination_by structural target => target

def walkAssignmentTarget (scope : ScopeId) : AssignmentTarget → Walk Unit
  | .simple target => walkTargetExpr scope target
  | .pattern pattern => walkPattern scope true pattern
termination_by structural target => target

/-- The expressions inside a target. The names of an assignment are uses, those of a declaration
are not. -/
def walkBindingTarget (scope : ScopeId) (areUses : Bool) : BindingTarget → Walk Unit
  | .identifier identifier =>
      if areUses then addReference scope identifier.name true else pure ()
  | .pattern pattern => walkPattern scope areUses pattern
termination_by structural target => target

def walkOptTarget (scope : ScopeId) (areUses : Bool) : Option BindingTarget → Walk Unit
  | none => pure ()
  | some target => walkBindingTarget scope areUses target
termination_by structural target => target

def walkPattern (scope : ScopeId) (areUses : Bool) : Pattern → Walk Unit
  | ⟨_, _, elements⟩ => walkPatternElements scope areUses elements
termination_by structural pattern => pattern

def walkPatternElements (scope : ScopeId) (areUses : Bool) : List PatternElement → Walk Unit
  | [] => pure ()
  | ⟨key, target, default, _⟩ :: rest => do
      walkOptKey scope key
      walkOptTarget scope areUses target
      walkOptExpr scope ((target.map targetHint).getD .none) default
      walkPatternElements scope areUses rest
termination_by structural elements => elements

def walkKey (scope : ScopeId) : PropertyKey → Walk Unit
  | .computed key => walkExpr scope .none key
  | _ => pure ()
termination_by structural key => key

def walkOptKey (scope : ScopeId) : Option PropertyKey → Walk Unit
  | none => pure ()
  | some key => walkKey scope key
termination_by structural key => key

def walkProperties (scope : ScopeId) : List Property → Walk Unit
  | [] => pure ()
  | property :: rest => do
      walkProperty scope property
      walkProperties scope rest
termination_by structural properties => properties

def walkProperty (scope : ScopeId) : Property → Walk Unit
  | .keyValue key value => do
      walkKey scope key
      walkExpr scope (.ofName? key.literalName?) value
  | .shorthand name => addReference scope name false
  | .method key f => do
      walkKey scope key
      let _ ← walkFunction scope .none none f
  | .spread value => walkExpr scope .none value
termination_by structural property => property

def walkFunction (scope : ScopeId) (hint : NameHint) (owner : Option (NodeId × String)) :
    FunctionNode → Walk ScopeId
  | ⟨id, position, name, kind, isExpression, parameters, body, isStrict⟩ => do
      if kind.isGeneratorOrAsync then
        throw (.unsupported "generator and async functions" position)
      let functionScope ← addScope .function id scope
      modifyTree (·.setArrow functionScope kind.isArrow)
      registerFunction id
        (initialFacts ⟨id, position, name, kind, isExpression, parameters, body, isStrict⟩
          functionScope hint owner)
      declareSelf functionScope id isExpression name
      walkParameters functionScope parameters
      walkBody functionScope id body
      return functionScope
termination_by structural f => f

def walkParameters (scope : ScopeId) : List Parameter → Walk Unit
  | [] => pure ()
  | ⟨_, target, default, _⟩ :: rest => do
      walkBindingTarget scope false target
      walkOptExpr scope .none default
      walkParameters scope rest
termination_by structural parameters => parameters

def walkBody (scope : ScopeId) (function : NodeId) : FunctionBody → Walk Unit
  | .block block => do
      let bodyScope ← walkBlock scope block
      modify fun survey =>
        { survey with
          functions := survey.functions.modify function fun facts =>
            { facts with bodyScope := some bodyScope } }
  | .expression value => walkExpr scope .none value
termination_by structural body => body

def walkBlock (scope : ScopeId) : Block → Walk ScopeId
  | ⟨id, statements⟩ => do
      let blockScope ← addScope .block id scope
      walkStatements blockScope statements
      return blockScope
termination_by structural block => block

def walkClass (scope : ScopeId) (role : ModuleRole) (hint : NameHint) : ClassNode → Walk Unit
  | ⟨id, position, name, superClass, isExpression, members⟩ => do
      let node : ClassNode := ⟨id, position, name, superClass, isExpression, members⟩
      walkOptExpr scope .none superClass
      noteDerived id superClass.isSome
      let classScope ← addScope .block id scope
      noteClassName classScope name
      declareClass scope role hint node
      let constructorScope ←
        walkConstructor classScope id (className node hint) superClass.isSome members
      walkMembers classScope constructorScope members
termination_by structural c => c

def walkConstructor (classScope : ScopeId) (classId : NodeId) (className : String)
    (isDerived : Bool) : List ClassMember → Walk ScopeId
  | [] => addDefaultConstructor classId isDerived classScope className
  | ⟨_, _, _, _, .method f⟩ :: rest => do
      if f.kind = .constructor then
        modify fun survey =>
          { survey with classConstructors := survey.classConstructors.insert classId f.id }
        walkFunction classScope .none (some (classId, className)) f
      else walkConstructor classScope classId className isDerived rest
  | ⟨_, _, _, _, .field _⟩ :: rest =>
      walkConstructor classScope classId className isDerived rest
termination_by structural members => members

def walkMembers (classScope constructorScope : ScopeId) : List ClassMember → Walk Unit
  | [] => pure ()
  | ⟨id, _, key, isStatic, kind⟩ :: rest => do
      walkKey classScope key
      bindMemberKey id key isStatic kind classScope constructorScope
      walkMember classScope (if isStatic then classScope else constructorScope) (fieldHint key)
        kind
      walkMembers classScope constructorScope rest
termination_by structural members => members

def walkMember (classScope fieldScope : ScopeId) (hint : NameHint) : MemberKind → Walk Unit
  | .method f => do
      if f.kind ≠ .constructor then
        let _ ← walkFunction classScope .none none f
  | .field initializer => walkOptExpr fieldScope hint initializer
termination_by structural kind => kind

def walkDeclaration (scope : ScopeId) (role : ModuleRole) : Declaration → Walk Unit
  | ⟨kind, declarators⟩ => walkDeclarators scope (declKind kind) role declarators
termination_by structural declaration => declaration

def walkDeclarators (scope : ScopeId) (kind : DeclKind) (role : ModuleRole) :
    List Declarator → Walk Unit
  | [] => pure ()
  | ⟨_, target, init⟩ :: rest => do
      target.boundNames.forM (declare scope kind role)
      walkBindingTarget scope false target
      walkOptExpr scope (targetHint target) init
      walkDeclarators scope kind role rest
termination_by structural declarators => declarators

def walkStatements (scope : ScopeId) : List Statement → Walk Unit
  | [] => pure ()
  | statement :: rest => do
      walkStatement scope statement
      walkStatements scope rest
termination_by structural statements => statements

def walkStatement (scope : ScopeId) : Statement → Walk Unit
  | ⟨id, position, kind⟩ => walkStatementKind scope id position kind
termination_by structural statement => statement

def walkOptStatement (scope : ScopeId) : Option Statement → Walk Unit
  | none => pure ()
  | some statement => walkStatement scope statement
termination_by structural statement => statement

def walkStatementKind (scope : ScopeId) (id : NodeId) (position : Position) :
    StatementKind → Walk Unit
  | .empty | .debugger | .continue _ | .break _ => pure ()
  | .block block => do
      let _ ← walkBlock scope block
  | .variableDecl declaration isExported => do
      if isExported then
        requireModuleRoot scope "export outside of a module" position
        modifyRecord position fun record =>
          (declaration.declarators.flatMap fun d => d.target.boundNames).foldl
            (fun record identifier => record.addLocalExport identifier.name identifier.name)
            record
      walkDeclaration scope (if isExported then .exported else .notModule) declaration
  | .expression value => walkExpr scope .none value
  | .throw value => walkExpr scope .none value
  | .ifElse test consequent alternate => do
      let inner ← addScope .block id scope
      walkExpr inner .none test
      walkStatement inner consequent
      walkOptStatement inner alternate
  | .while test body => do
      let inner ← addScope .loop id scope
      walkExpr inner .none test
      walkStatement inner body
  | .doWhile body test => do
      let inner ← addScope .loop id scope
      walkExpr inner .none test
      walkStatement inner body
  | .for init test update body => do
      let inner ← addScope .loop id scope
      walkForInit inner init
      walkOptExpr inner .none test
      walkOptExpr inner .none update
      walkStatement inner body
  | .forIn target source body => do
      walkExpr scope .none source
      let inner ← addScope .loop id scope
      walkForTarget inner target
      walkStatement inner body
  | .forOf target source body => do
      walkExpr scope .none source
      let inner ← addScope .loop id scope
      walkForTarget inner target
      walkStatement inner body
  | .return value => walkOptExpr scope .none value
  | .labelled _ body => do
      let inner ← addScope .block id scope
      walkStatement inner body
  | .tryCatch block handler finalizer => do
      let _ ← walkBlock scope block
      walkOptCatch scope handler
      walkOptBlock scope finalizer
  | .switch discriminant cases => do
      walkExpr scope .none discriminant
      let inner ← addScope .block id scope
      walkCases inner cases
  | .functionDecl f exportKind => do
      exportDeclaration scope (f.name.map Identifier.name) exportKind position
      let _ ← walkFunction scope (.ofExport exportKind) none f
      match declaredName? f.name exportKind with
      | some name =>
          declareFunction scope
            { name, node := f.id, kind := .function, role := exportRole exportKind }
      | none => pure ()
  | .classDecl c exportKind => do
      exportDeclaration scope (c.name.map Identifier.name) exportKind position
      walkClass scope (exportRole exportKind) (.ofExport exportKind) c
  | .importDecl declaration => do
      requireModuleRoot scope "import outside of a module" position
      addImport scope declaration position
  | .exportDecl declaration => do
      requireModuleRoot scope "export outside of a module" position
      addExport declaration position
  | .exportDefault value => do
      requireModuleRoot scope "export outside of a module" position
      modifyRecord position (·.addLocalExport HiddenName.defaultExport "default")
      addDecl scope
        { name := HiddenName.defaultExport, node := id, kind := .let, role := .exported }
      walkExpr scope .defaultExport value
termination_by structural kind => kind

def walkForInit (scope : ScopeId) : Option ForHead → Walk Unit
  | none => pure ()
  | some head => walkForHead scope head
termination_by structural head => head

def walkForHead (scope : ScopeId) : ForHead → Walk Unit
  | .declaration declaration => walkDeclaration scope .notModule declaration
  | .expression value => walkExpr scope .none value
termination_by structural head => head

def walkForTarget (scope : ScopeId) : ForHead → Walk Unit
  | .declaration declaration => walkDeclaration scope .notModule declaration
  | .expression target => walkTargetExpr scope target
termination_by structural head => head

def walkOptBlock (scope : ScopeId) : Option Block → Walk Unit
  | none => pure ()
  | some block => do
      let _ ← walkBlock scope block
termination_by structural block => block

def walkOptCatch (scope : ScopeId) : Option CatchClause → Walk Unit
  | none => pure ()
  | some clause => walkCatch scope clause
termination_by structural clause => clause

def walkCatch (scope : ScopeId) : CatchClause → Walk Unit
  | ⟨id, _, parameter, body⟩ => do
      let catchScope ← addScope .block id scope
      ((parameter.map BindingTarget.boundNames).getD []).forM fun identifier =>
        addDecl catchScope
          { name := identifier.name, node := identifier.id, kind := .catchParameter }
      walkOptTarget catchScope false parameter
      let _ ← walkBlock catchScope body
termination_by structural clause => clause

def walkCases (scope : ScopeId) : List SwitchCase → Walk Unit
  | [] => pure ()
  | ⟨test, body⟩ :: rest => do
      walkOptExpr scope .none test
      walkStatements scope body
      walkCases scope rest
termination_by structural cases => cases

end

end AccScript.Walk

namespace AccScript.Survey

def ofProgram (program : Program) (options : Options) : Except Failure Survey := do
  let (_, survey) ←
    (Walk.walkStatements ScopeTree.rootId program.statements).run (Survey.start program options)
  return survey.finishExports

end AccScript.Survey
