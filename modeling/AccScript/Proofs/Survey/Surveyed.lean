import AccScript.Compiler
import AccScript.Proofs.Scope.WellFormed
import AccScript.Proofs.Source.Nodes

/-!
# What a survey knows about a piece of the program

`Surveyed` says that a survey answers every question that code generation will ask about a piece of
the program in a given scope: each node that opens a scope has one whose parent is the scope
around, each name can be resolved from the scope in which its code is emitted, and every function
and class is registered.  It is a predicate on the final survey, by recursion on the tree.

It stands between the two walks over a program.  The walk that makes the survey establishes it, and
the walk that makes the code relies on nothing else.  A `Ledger` tells what is known: whether the
survey was made from the program at all, and what holds for each function of the program.
-/

namespace AccScript

namespace CompileContext

/-- Resolving a name from a scope does not find a captured variable without a slot. -/
def Reaches (c : CompileContext) (s : ScopeId) (name : String) : Prop :=
  ∀ failure, c.survey.tree.resolve s name c.options.commonjs = .error failure → failure = .unmet

/-- A node has a scope of its own below another one. -/
structure Opens (c : CompileContext) (node : NodeId) (kind : ScopeKind) (outer inner : ScopeId) :
    Prop where
  recorded : c.survey.tree.scopeOfNode? node = some inner
  scope : ∃ scope, c.survey.tree.scope? inner = some scope ∧ scope.node = node ∧
    scope.kind = kind ∧ scope.parent = some outer

/-- A function is registered below a scope. -/
structure Registers (c : CompileContext) (node : NodeId) (kind : FunctionKind)
    (outer inner : ScopeId) : Prop where
  opened : c.Opens node .function outer inner
  facts : ∃ facts, c.survey.functions.get? node = some facts ∧ facts.kind = kind
  named : ∃ name, c.names.get? node = some name
  /-- Only arrow functions do not see their own hidden parameters. -/
  hidden : kind.isArrow = false →
    ∀ name ∈ [HiddenName.funcObj, HiddenName.newTarget, HiddenName.this],
      ∃ v, c.survey.tree.findLocal? inner name = some v

/-- At least so many parameters are bound in a scope. -/
def Binds (c : CompileContext) (s : ScopeId) (count : Nat) : Prop :=
  ∃ data, c.survey.tree.variableScope? s = some data ∧ count ≤ data.parameters.length

def ReachesAll (c : CompileContext) (s : ScopeId) (names : List Identifier) : Prop :=
  ∀ identifier ∈ names, c.Reaches s identifier.name

/-- A function declared in the body of a function is bound by the function. -/
def HoistsTo (c : CompileContext) (s : ScopeId) (name : String) : Prop :=
  ∀ outer, c.survey.tree.parent? s = some outer → c.survey.tree.kindIs (· = .block) s = true →
    c.survey.tree.kindIs (· = .function) outer = true → c.Reaches outer name

end CompileContext

def MemberKind.isField : MemberKind → Bool
  | .field _ => true
  | .method _ => false

/-- An analysed program with what is known about it. -/
structure Ledger extends CompileContext where
  /-- The survey was made from the program. -/
  surveyed : Prop
  /-- What is known about a function of the program. -/
  admits : FunctionNode → Prop

/-- Every function among some nodes is admitted. -/
def Ledger.AdmitsAll (L : Ledger) (nodes : List SourceNode) : Prop :=
  ∀ node ∈ nodes, ∀ f, node.function = some f → L.admits f

/-- There is something with a property, and all that have it are in order.  A ledger without a survey
knows of no such thing, so everything has to be in order. -/
def Ledger.Finds {α : Type} (L : Ledger) (place : α → Prop) (inOrder : α → Prop) : Prop :=
  (L.surveyed → ∃ x, place x) ∧ ∀ x, (L.surveyed → place x) → inOrder x

theorem Ledger.Finds.choose
    {α : Type} {L : Ledger} {place inOrder : α → Prop} (h : L.Finds place inOrder) (other : α) :
    ∃ x, (L.surveyed → place x) ∧ inOrder x := by
  by_cases known : L.surveyed
  · obtain ⟨x, placed⟩ := h.1 known
    exact ⟨x, fun _ => placed, h.2 x fun _ => placed⟩
  · exact ⟨other, fun yes => absurd yes known, h.2 other fun yes => absurd yes known⟩

/-- The scope of a class and the scope of its constructor. -/
structure ClassPlace where
  scope : ScopeId
  constructor : NodeId
  constructorScope : ScopeId

/-- A class has a scope and a constructor below it; a class expression sees its own name. -/
structure CompileContext.Places (c : CompileContext) (id : NodeId) (name : Option Identifier)
    (isExpression : Bool) (s : ScopeId) (place : ClassPlace) : Prop where
  opens : c.Opens id .block s place.scope
  named : isExpression = true → c.ReachesAll place.scope name.toList
  recorded : c.survey.classConstructors.get? id = some place.constructor
  registers : c.Registers place.constructor .constructor place.scope place.constructorScope

/-- A function is registered, and what it declares can be reached. -/
structure CompileContext.Declares (c : CompileContext) (id : NodeId) (kind : FunctionKind)
    (parameters : List Parameter) (outer inner : ScopeId) : Prop where
  registers : c.Registers id kind outer inner
  binds : c.Binds inner parameters.length
  reaches : c.ReachesAll inner (parameters.flatMap fun p => p.target.boundNames)

section

variable (L : Ledger)

def FieldKeySurveyed (classScope constructorScope : ScopeId) (member : NodeId) : Prop :=
  ∀ binding, L.survey.computedFieldKeys.get? member = some binding →
    L.Reaches classScope binding ∧ L.Reaches constructorScope binding

mutual

def Expr.Surveyed (s : ScopeId) : Expr → Prop
  | ⟨_, kind⟩ => kind.Surveyed s

def ExprKind.Surveyed (s : ScopeId) : ExprKind → Prop
  | .number _ | .bigInt _ | .string _ | .boolean _ | .null | .regExp _ _ => True
  | .identifier name => L.surveyed → L.Reaches s name
  | .this => L.surveyed → L.Reaches s HiddenName.this
  | .newTarget => L.surveyed → L.Reaches s HiddenName.newTarget
  | .template _ parts => Expr.SurveyedList s parts
  | .taggedTemplate tag _ _ parts => tag.Surveyed s ∧ Expr.SurveyedList s parts
  | .array elements => Expr.SurveyedElements s elements
  | .object properties => Property.SurveyedList s properties
  | .member object _ => object.Surveyed s
  | .computedMember object property => object.Surveyed s ∧ property.Surveyed s
  | .superMember _ => L.surveyed → L.Reaches s HiddenName.this
  | .superComputedMember property =>
      (L.surveyed → L.Reaches s HiddenName.this) ∧ property.Surveyed s
  | .call callee arguments => callee.Surveyed s ∧ Expr.SurveyedList s arguments
  | .superCall arguments =>
      Expr.SurveyedList s arguments ∧ (L.surveyed → L.Reaches s HiddenName.funcObj) ∧
        (L.surveyed → L.Reaches s HiddenName.this)
  | .construct callee arguments => callee.Surveyed s ∧ Expr.SurveyedList s arguments
  | .spread inner => inner.Surveyed s
  | .function f => f.Surveyed s
  | .classExpr node => node.Surveyed s
  | .unary _ operand => operand.Surveyed s
  | .update _ _ target => target.Surveyed s
  | .binary _ lhs rhs => lhs.Surveyed s ∧ rhs.Surveyed s
  | .logical _ lhs rhs => lhs.Surveyed s ∧ rhs.Surveyed s
  | .assignment _ target value => target.Surveyed s ∧ value.Surveyed s
  | .conditional test consequent alternate =>
      test.Surveyed s ∧ consequent.Surveyed s ∧ alternate.Surveyed s
  | .sequence items => Expr.SurveyedList s items
  | .yield _ | .await _ => True

def Expr.SurveyedList (s : ScopeId) : List Expr → Prop
  | [] => True
  | e :: rest => e.Surveyed s ∧ Expr.SurveyedList s rest

def Expr.SurveyedElements (s : ScopeId) : List (Option Expr) → Prop
  | [] => True
  | e :: rest => Expr.SurveyedOption s e ∧ Expr.SurveyedElements s rest

def Expr.SurveyedOption (s : ScopeId) : Option Expr → Prop
  | none => True
  | some e => e.Surveyed s

def AssignmentTarget.Surveyed (s : ScopeId) : AssignmentTarget → Prop
  | .simple target => target.Surveyed s
  | .pattern pattern => pattern.Surveyed s ∧ (L.surveyed → L.ReachesAll s pattern.boundNames)

/-- The expressions inside of a target; the names that it binds are dealt with apart. -/
def BindingTarget.Surveyed (s : ScopeId) : BindingTarget → Prop
  | .identifier _ => True
  | .pattern pattern => pattern.Surveyed s

def BindingTarget.SurveyedOption (s : ScopeId) : Option BindingTarget → Prop
  | none => True
  | some target => target.Surveyed s

def Pattern.Surveyed (s : ScopeId) : Pattern → Prop
  | ⟨_, _, elements⟩ => PatternElement.SurveyedList s elements

def PatternElement.SurveyedList (s : ScopeId) : List PatternElement → Prop
  | [] => True
  | ⟨key, target, default, _⟩ :: rest =>
      PropertyKey.SurveyedOption s key ∧ BindingTarget.SurveyedOption s target ∧
        Expr.SurveyedOption s default ∧ PatternElement.SurveyedList s rest

def PropertyKey.Surveyed (s : ScopeId) : PropertyKey → Prop
  | .computed key => key.Surveyed s
  | _ => True

def PropertyKey.SurveyedOption (s : ScopeId) : Option PropertyKey → Prop
  | none => True
  | some key => key.Surveyed s

def Property.SurveyedList (s : ScopeId) : List Property → Prop
  | [] => True
  | property :: rest => property.Surveyed s ∧ Property.SurveyedList s rest

def Property.Surveyed (s : ScopeId) : Property → Prop
  | .keyValue key value => key.Surveyed s ∧ value.Surveyed s
  | .shorthand name => L.surveyed → L.Reaches s name
  | .method key f => key.Surveyed s ∧ f.Surveyed s
  | .spread value => value.Surveyed s

def FunctionNode.Surveyed (s : ScopeId) : FunctionNode → Prop
  | ⟨id, position, name, kind, isExpression, parameters, body, isStrict⟩ =>
      L.admits ⟨id, position, name, kind, isExpression, parameters, body, isStrict⟩ ∧
        L.Finds (L.Declares id kind parameters s) fun inner =>
          Parameter.SurveyedList inner parameters ∧ body.Surveyed inner

def Parameter.SurveyedList (s : ScopeId) : List Parameter → Prop
  | [] => True
  | ⟨_, target, default, _⟩ :: rest =>
      target.Surveyed s ∧ Expr.SurveyedOption s default ∧ Parameter.SurveyedList s rest

def FunctionBody.Surveyed (s : ScopeId) : FunctionBody → Prop
  | .block block => block.Surveyed s
  | .expression value => value.Surveyed s

def Block.Surveyed (s : ScopeId) : Block → Prop
  | ⟨id, statements⟩ =>
      L.Finds (L.Opens id .block s) fun inner => Statement.SurveyedList inner statements

def Block.SurveyedOption (s : ScopeId) : Option Block → Prop
  | none => True
  | some block => block.Surveyed s

/-- The class that a class extends belongs to the scope around it, its members to its own. -/
def ClassNode.Surveyed (s : ScopeId) : ClassNode → Prop
  | ⟨id, _, name, superClass, isExpression, members⟩ =>
      Expr.SurveyedOption s superClass ∧
        L.Finds (L.Places id name isExpression s) fun place =>
          ConstructorSurveyed place.scope place.constructor members ∧
            ClassMember.SurveyedList place.scope place.constructorScope members

def ConstructorSurveyed (s : ScopeId) (constructor : NodeId) : List ClassMember → Prop
  | [] => True
  | ⟨_, _, _, _, .method f⟩ :: rest =>
      if f.kind = .constructor then (L.surveyed → f.id = constructor) ∧ f.Surveyed s
      else ConstructorSurveyed s constructor rest
  | ⟨_, _, _, _, .field _⟩ :: rest => ConstructorSurveyed s constructor rest

/-- The members of a class: keys, methods and static fields belong to the scope of the class,
instance fields to that of its constructor. -/
def ClassMember.SurveyedList (classScope constructorScope : ScopeId) : List ClassMember → Prop
  | [] => True
  | ⟨id, _, key, isStatic, kind⟩ :: rest =>
      key.Surveyed classScope ∧
        (L.surveyed → FieldKeySurveyed L classScope constructorScope id) ∧
        (isStatic = false → kind.isField = true →
          L.survey.computedFieldKeys.get? id = none → key.Surveyed constructorScope) ∧
        kind.Surveyed classScope (if isStatic then classScope else constructorScope) ∧
        ClassMember.SurveyedList classScope constructorScope rest

/-- A method, or the value of a field. -/
def MemberKind.Surveyed (classScope fieldScope : ScopeId) : MemberKind → Prop
  | .method f => f.kind ≠ .constructor → f.Surveyed classScope
  | .field initializer => Expr.SurveyedOption fieldScope initializer

def Declaration.Surveyed (s : ScopeId) : Declaration → Prop
  | ⟨_, declarators⟩ => Declarator.SurveyedList s declarators

def Declarator.SurveyedList (s : ScopeId) : List Declarator → Prop
  | [] => True
  | ⟨_, target, init⟩ :: rest =>
      (L.surveyed → L.ReachesAll s target.boundNames) ∧ target.Surveyed s ∧
        Expr.SurveyedOption s init ∧ Declarator.SurveyedList s rest

def Statement.Surveyed (s : ScopeId) : Statement → Prop
  | ⟨id, _, kind⟩ => kind.Surveyed s id

def Statement.SurveyedList (s : ScopeId) : List Statement → Prop
  | [] => True
  | statement :: rest => statement.Surveyed s ∧ Statement.SurveyedList s rest

def Statement.SurveyedOption (s : ScopeId) : Option Statement → Prop
  | none => True
  | some statement => statement.Surveyed s

def StatementKind.Surveyed (s : ScopeId) (id : NodeId) : StatementKind → Prop
  | .empty | .debugger | .continue _ | .break _ | .importDecl _ | .exportDecl _ => True
  | .block block => block.Surveyed s
  | .variableDecl declaration _ => declaration.Surveyed s
  | .expression value => value.Surveyed s
  | .ifElse test consequent alternate =>
      L.Finds (L.Opens id .block s) fun inner =>
        test.Surveyed inner ∧ consequent.Surveyed inner ∧
          Statement.SurveyedOption inner alternate
  | .while test body =>
      L.Finds (L.Opens id .loop s) fun inner => test.Surveyed inner ∧ body.Surveyed inner
  | .doWhile body test =>
      L.Finds (L.Opens id .loop s) fun inner => test.Surveyed inner ∧ body.Surveyed inner
  | .for init test update body =>
      L.Finds (L.Opens id .loop s) fun inner =>
        ForHead.SurveyedOption inner init ∧ Expr.SurveyedOption inner test ∧
          Expr.SurveyedOption inner update ∧ body.Surveyed inner
  | .forIn target source body =>
      source.Surveyed s ∧
        L.Finds (L.Opens id .loop s) fun inner => target.Surveyed inner ∧ body.Surveyed inner
  | .forOf target source body =>
      source.Surveyed s ∧
        L.Finds (L.Opens id .loop s) fun inner => target.Surveyed inner ∧ body.Surveyed inner
  | .return value => Expr.SurveyedOption s value
  | .labelled _ body => L.Finds (L.Opens id .block s) fun inner => body.Surveyed inner
  | .throw value => value.Surveyed s
  | .tryCatch block handler finalizer =>
      block.Surveyed s ∧ CatchClause.SurveyedOption s handler ∧ Block.SurveyedOption s finalizer
  | .switch discriminant cases =>
      discriminant.Surveyed s ∧
        L.Finds (L.Opens id .block s) fun inner => SwitchCase.SurveyedList inner cases
  | .functionDecl f exportKind =>
      f.Surveyed s ∧
        (L.surveyed → ∀ name, declaredName? f.name exportKind = some name → L.HoistsTo s name)
  | .classDecl node exportKind =>
      node.Surveyed s ∧ (L.surveyed → node.isExpression = false →
        ∀ name, declaredName? node.name exportKind = some name → L.Reaches s name)
  | .exportDefault value =>
      value.Surveyed s ∧ (L.surveyed → L.Reaches s HiddenName.defaultExport)

def ForHead.Surveyed (s : ScopeId) : ForHead → Prop
  | .declaration declaration => declaration.Surveyed s
  | .expression value => value.Surveyed s

def ForHead.SurveyedOption (s : ScopeId) : Option ForHead → Prop
  | none => True
  | some head => head.Surveyed s

def CatchClause.Surveyed (s : ScopeId) : CatchClause → Prop
  | ⟨id, _, parameter, body⟩ =>
      L.Finds (L.Opens id .block s) fun inner =>
        (L.surveyed → L.ReachesAll inner ((parameter.map BindingTarget.boundNames).getD [])) ∧
          BindingTarget.SurveyedOption inner parameter ∧ body.Surveyed inner

def CatchClause.SurveyedOption (s : ScopeId) : Option CatchClause → Prop
  | none => True
  | some clause => clause.Surveyed s

def SwitchCase.SurveyedList (s : ScopeId) : List SwitchCase → Prop
  | [] => True
  | ⟨test, body⟩ :: rest =>
      Expr.SurveyedOption s test ∧ Statement.SurveyedList s body ∧ SwitchCase.SurveyedList s rest

end

/-- The root scope belongs to the program, which is no function. -/
structure CompileContext.Roots (c : CompileContext) : Prop where
  recorded : c.survey.tree.scopeOfNode? c.program.id = some ScopeTree.rootId
  scope : ∃ scope, c.survey.tree.scope? ScopeTree.rootId = some scope ∧ scope.parent = none ∧
    scope.kind.isLexical = true ∧ c.survey.functions.get? scope.node = none
  named : ∃ name, c.names.get? c.program.id = some name

/-- The program root is recorded, and its statements are surveyed in the root scope. -/
structure Ledger.SurveyedRoot : Prop where
  roots : L.surveyed → L.Roots
  statements : ∀ s, (L.surveyed → s = ScopeTree.rootId) →
    Statement.SurveyedList L s L.program.statements

end

end AccScript
