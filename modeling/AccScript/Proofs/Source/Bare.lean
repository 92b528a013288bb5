import AccScript.Source.Names
import Mathlib.Logic.Basic

/-!
# Programs without positions

Positions are there for errors and for a debugger.  `Program.bare` leaves them out, and with them
the record of the nodes that other nodes were derived from; all else of a program stays.  Two
programs with the same bare program are the same up to such metadata.
-/

namespace AccScript

def Position.bare : Position := ⟨0, 0⟩

mutual

def Expr.bare : Expr → Expr
  | ⟨_, kind⟩ => ⟨.bare, kind.bare⟩

def ExprKind.bare : ExprKind → ExprKind
  | .number value => .number value
  | .bigInt literal => .bigInt literal
  | .string value => .string value
  | .boolean value => .boolean value
  | .null => .null
  | .regExp pattern flags => .regExp pattern flags
  | .template quasis parts => .template quasis (Expr.bareList parts)
  | .taggedTemplate tag quasis rawQuasis parts =>
      .taggedTemplate tag.bare quasis rawQuasis (Expr.bareList parts)
  | .identifier name => .identifier name
  | .this => .this
  | .newTarget => .newTarget
  | .array elements => .array (Expr.bareElements elements)
  | .object properties => .object (Property.bareList properties)
  | .member object property => .member object.bare property
  | .computedMember object property => .computedMember object.bare property.bare
  | .superMember property => .superMember property
  | .superComputedMember property => .superComputedMember property.bare
  | .call callee arguments => .call callee.bare (Expr.bareList arguments)
  | .superCall arguments => .superCall (Expr.bareList arguments)
  | .construct callee arguments => .construct callee.bare (Expr.bareList arguments)
  | .spread inner => .spread inner.bare
  | .function f => .function f.bare
  | .classExpr c => .classExpr c.bare
  | .unary op operand => .unary op operand.bare
  | .update op isPrefix target => .update op isPrefix target.bare
  | .binary op lhs rhs => .binary op lhs.bare rhs.bare
  | .logical op lhs rhs => .logical op lhs.bare rhs.bare
  | .assignment op target value => .assignment op target.bare value.bare
  | .conditional test consequent alternate =>
      .conditional test.bare consequent.bare alternate.bare
  | .sequence items => .sequence (Expr.bareList items)
  | .yield value => .yield (Expr.bare? value)
  | .await value => .await value.bare

def Expr.bareList : List Expr → List Expr
  | [] => []
  | e :: rest => e.bare :: Expr.bareList rest

def Expr.bareElements : List (Option Expr) → List (Option Expr)
  | [] => []
  | e :: rest => Expr.bare? e :: Expr.bareElements rest

def Expr.bare? : Option Expr → Option Expr
  | none => none
  | some e => some e.bare

def AssignmentTarget.bare : AssignmentTarget → AssignmentTarget
  | .simple target => .simple target.bare
  | .pattern pattern => .pattern pattern.bare

def BindingTarget.bare : BindingTarget → BindingTarget
  | .identifier identifier => .identifier identifier
  | .pattern pattern => .pattern pattern.bare

def BindingTarget.bare? : Option BindingTarget → Option BindingTarget
  | none => none
  | some target => some target.bare

def Pattern.bare : Pattern → Pattern
  | ⟨_, shape, elements⟩ => ⟨.bare, shape, PatternElement.bareList elements⟩

def PatternElement.bare : PatternElement → PatternElement
  | ⟨key, target, default, isRest⟩ =>
      ⟨PropertyKey.bare? key, BindingTarget.bare? target, Expr.bare? default, isRest⟩

def PatternElement.bareList : List PatternElement → List PatternElement
  | [] => []
  | element :: rest => element.bare :: PatternElement.bareList rest

def PropertyKey.bare : PropertyKey → PropertyKey
  | .identifier name => .identifier name
  | .string name => .string name
  | .number value => .number value
  | .computed key => .computed key.bare

def PropertyKey.bare? : Option PropertyKey → Option PropertyKey
  | none => none
  | some key => some key.bare

def Property.bare : Property → Property
  | .keyValue key value => .keyValue key.bare value.bare
  | .shorthand name => .shorthand name
  | .method key f => .method key.bare f.bare
  | .spread value => .spread value.bare

def Property.bareList : List Property → List Property
  | [] => []
  | property :: rest => property.bare :: Property.bareList rest

def FunctionNode.bare : FunctionNode → FunctionNode
  | ⟨id, _, name, kind, isExpression, parameters, body, isStrict⟩ =>
      ⟨id, .bare, name, kind, isExpression, Parameter.bareList parameters, body.bare, isStrict⟩

def Parameter.bare : Parameter → Parameter
  | ⟨_, target, default, isRest⟩ => ⟨.bare, target.bare, Expr.bare? default, isRest⟩

def Parameter.bareList : List Parameter → List Parameter
  | [] => []
  | parameter :: rest => parameter.bare :: Parameter.bareList rest

def FunctionBody.bare : FunctionBody → FunctionBody
  | .block block => .block block.bare
  | .expression value => .expression value.bare

def Block.bare : Block → Block
  | ⟨id, statements⟩ => ⟨id, Statement.bareList statements⟩

def Block.bare? : Option Block → Option Block
  | none => none
  | some block => some block.bare

def ClassNode.bare : ClassNode → ClassNode
  | ⟨id, _, name, superClass, isExpression, members⟩ =>
      ⟨id, .bare, name, Expr.bare? superClass, isExpression, ClassMember.bareList members⟩

def ClassMember.bare : ClassMember → ClassMember
  | ⟨id, _, key, isStatic, kind⟩ => ⟨id, .bare, key.bare, isStatic, kind.bare⟩

def ClassMember.bareList : List ClassMember → List ClassMember
  | [] => []
  | member :: rest => member.bare :: ClassMember.bareList rest

def MemberKind.bare : MemberKind → MemberKind
  | .method f => .method f.bare
  | .field initializer => .field (Expr.bare? initializer)

def Declaration.bare : Declaration → Declaration
  | ⟨kind, declarators⟩ => ⟨kind, Declarator.bareList declarators⟩

def Declarator.bare : Declarator → Declarator
  | ⟨_, target, init⟩ => ⟨.bare, target.bare, Expr.bare? init⟩

def Declarator.bareList : List Declarator → List Declarator
  | [] => []
  | declarator :: rest => declarator.bare :: Declarator.bareList rest

def Statement.bare : Statement → Statement
  | ⟨id, _, kind⟩ => ⟨id, .bare, kind.bare⟩

def Statement.bareList : List Statement → List Statement
  | [] => []
  | statement :: rest => statement.bare :: Statement.bareList rest

def Statement.bare? : Option Statement → Option Statement
  | none => none
  | some statement => some statement.bare

def StatementKind.bare : StatementKind → StatementKind
  | .empty => .empty
  | .debugger => .debugger
  | .block block => .block block.bare
  | .variableDecl declaration isExported => .variableDecl declaration.bare isExported
  | .expression value => .expression value.bare
  | .ifElse test consequent alternate =>
      .ifElse test.bare consequent.bare (Statement.bare? alternate)
  | .while test body => .while test.bare body.bare
  | .doWhile body test => .doWhile body.bare test.bare
  | .for init test update body =>
      .for (ForHead.bare? init) (Expr.bare? test) (Expr.bare? update) body.bare
  | .forIn target source body => .forIn target.bare source.bare body.bare
  | .forOf target source body => .forOf target.bare source.bare body.bare
  | .continue label => .continue label
  | .break label => .break label
  | .return value => .return (Expr.bare? value)
  | .labelled label body => .labelled label body.bare
  | .throw value => .throw value.bare
  | .tryCatch block handler finalizer =>
      .tryCatch block.bare (CatchClause.bare? handler) (Block.bare? finalizer)
  | .switch discriminant cases => .switch discriminant.bare (SwitchCase.bareList cases)
  | .functionDecl f exportKind => .functionDecl f.bare exportKind
  | .classDecl c exportKind => .classDecl c.bare exportKind
  | .importDecl declaration => .importDecl declaration
  | .exportDecl declaration => .exportDecl declaration
  | .exportDefault value => .exportDefault value.bare

def ForHead.bare : ForHead → ForHead
  | .declaration declaration => .declaration declaration.bare
  | .expression value => .expression value.bare

def ForHead.bare? : Option ForHead → Option ForHead
  | none => none
  | some head => some head.bare

def CatchClause.bare : CatchClause → CatchClause
  | ⟨id, _, parameter, body⟩ => ⟨id, .bare, BindingTarget.bare? parameter, body.bare⟩

def CatchClause.bare? : Option CatchClause → Option CatchClause
  | none => none
  | some clause => some clause.bare

def SwitchCase.bare : SwitchCase → SwitchCase
  | ⟨test, body⟩ => ⟨Expr.bare? test, Statement.bareList body⟩

def SwitchCase.bareList : List SwitchCase → List SwitchCase
  | [] => []
  | c :: rest => c.bare :: SwitchCase.bareList rest

end

/-! ## Lists and options -/

theorem Parameter.bareList_eq (parameters : List Parameter) :
    Parameter.bareList parameters = parameters.map Parameter.bare := by
  induction parameters with
  | nil => rfl
  | cons p rest ih => rw [Parameter.bareList, List.map_cons, ih]

theorem ClassMember.bareList_eq (members : List ClassMember) :
    ClassMember.bareList members = members.map ClassMember.bare := by
  induction members with
  | nil => rfl
  | cons m rest ih => rw [ClassMember.bareList, List.map_cons, ih]

theorem Declarator.bareList_eq (declarators : List Declarator) :
    Declarator.bareList declarators = declarators.map Declarator.bare := by
  induction declarators with
  | nil => rfl
  | cons d rest ih => rw [Declarator.bareList, List.map_cons, ih]

theorem Statement.bareList_eq (statements : List Statement) :
    Statement.bareList statements = statements.map Statement.bare := by
  induction statements with
  | nil => rfl
  | cons s rest ih => rw [Statement.bareList, List.map_cons, ih]

/-! ## Names -/

mutual

@[simp] theorem BindingTarget.boundNames_bare :
    (target : BindingTarget) → target.bare.boundNames = target.boundNames
  | .identifier _ => rfl
  | .pattern pattern => Pattern.boundNames_bare pattern

theorem Pattern.boundNames_bare : (pattern : Pattern) → pattern.bare.boundNames = pattern.boundNames
  | ⟨_, _, elements⟩ => PatternElement.boundNamesOfList_bare elements

theorem PatternElement.boundNamesOfList_bare : (elements : List PatternElement) →
    PatternElement.boundNamesOfList (PatternElement.bareList elements) =
      PatternElement.boundNamesOfList elements
  | [] => rfl
  | element :: rest =>
      congrArg₂ (· ++ ·) (PatternElement.boundNames_bare element)
        (PatternElement.boundNamesOfList_bare rest)

theorem PatternElement.boundNames_bare :
    (element : PatternElement) → element.bare.boundNames = element.boundNames
  | ⟨_, some target, _, _⟩ => BindingTarget.boundNames_bare target
  | ⟨_, none, _, _⟩ => rfl

end

@[simp] theorem PropertyKey.literalName?_bare (key : PropertyKey) :
    key.bare.literalName? = key.literalName? := by
  cases key <;> rfl

namespace FunctionNode

variable (f : FunctionNode)

@[simp] theorem id_bare : f.bare.id = f.id := by cases f; rfl
@[simp] theorem name_bare : f.bare.name = f.name := by cases f; rfl
@[simp] theorem kind_bare : f.bare.kind = f.kind := by cases f; rfl
@[simp] theorem isExpression_bare : f.bare.isExpression = f.isExpression := by cases f; rfl
@[simp] theorem body_bare : f.bare.body = f.body.bare := by cases f; rfl

@[simp] theorem parameters_bare : f.bare.parameters = f.parameters.map Parameter.bare := by
  cases f
  exact Parameter.bareList_eq _

@[simp] theorem parameterLength_bare : f.bare.parameterLength = f.parameterLength := by
  have same : (fun p : Parameter => p.bare.default.isNone && !p.bare.isRest) =
      fun p => p.default.isNone && !p.isRest := by
    funext ⟨_, _, default, _⟩
    cases default <;> rfl
  rw [parameterLength, parameters_bare, List.takeWhile_map, List.length_map, Function.comp_def,
    same, parameterLength]

end FunctionNode

namespace ClassNode

variable (c : ClassNode)

@[simp] theorem id_bare : c.bare.id = c.id := by cases c; rfl
@[simp] theorem name_bare : c.bare.name = c.name := by cases c; rfl
@[simp] theorem isExpression_bare : c.bare.isExpression = c.isExpression := by cases c; rfl

@[simp] theorem isSome_superClass_bare : c.bare.superClass.isSome = c.superClass.isSome := by
  obtain ⟨_, _, _, superClass, _, _⟩ := c
  cases superClass <;> rfl

@[simp] theorem members_bare : c.bare.members = c.members.map ClassMember.bare := by
  cases c
  exact ClassMember.bareList_eq _

theorem constructor?_member_bare (m : ClassMember) :
    m.bare.constructor? = m.constructor?.map FunctionNode.bare := by
  obtain ⟨_, _, _, _, kind⟩ := m
  cases kind with
  | field _ => rfl
  | method f =>
    show (if f.bare.kind = .constructor then some f.bare else none) =
      (if f.kind = .constructor then some f else none).map FunctionNode.bare
    rw [FunctionNode.kind_bare]
    split <;> rfl

@[simp] theorem constructor?_bare : c.bare.constructor? = c.constructor?.map FunctionNode.bare := by
  rw [constructor?, members_bare, constructor?]
  induction c.members with
  | nil => rfl
  | cons m rest ih =>
    rw [List.map_cons, List.findSome?_cons, List.findSome?_cons, constructor?_member_bare]
    cases m.constructor? with
    | none => exact ih
    | some f => rfl

end ClassNode

/-- A program without its metadata. -/
def Program.bare (p : Program) : Program where
  id := p.id
  position := .bare
  statements := Statement.bareList p.statements
  isStrict := p.isStrict
  nextNodeId := p.nextNodeId
  derivedFrom := []

end AccScript
