import AccScript.Number.Layout
import AccScript.Scope.Basic
import AccScript.Source.Operator
import AccScript.Source.Position

/-!
# The program tree

The nodes of a parsed JavaScript program. Nodes that own a scope, a declaration or a compilation
unit have an identity; every node that an error can point to has a position.
-/

namespace AccScript

inductive DeclarationKind where
  | var
  | let
  | const
deriving DecidableEq, Repr

inductive PatternShape where
  | array
  | object
deriving DecidableEq, Repr

inductive FunctionKind where
  | normal
  | arrow
  | method
  | getter
  | setter
  | constructor
  | generator
  | async
  | asyncArrow
  | asyncGenerator
deriving DecidableEq, Repr

namespace FunctionKind

def isArrow : FunctionKind → Bool
  | .arrow | .asyncArrow => true
  | _ => false

def isGeneratorOrAsync : FunctionKind → Bool
  | .generator | .async | .asyncArrow | .asyncGenerator => true
  | _ => false

end FunctionKind

/-- How a declaration is exported. -/
inductive ExportKind where
  | none
  | named
  | default
deriving DecidableEq, Repr

/-- A name that a declaration binds. -/
structure Identifier where
  name : String
  id : NodeId
deriving DecidableEq, Repr

structure ImportSpecifier where
  id : NodeId
  imported : String
  localName : Identifier
deriving DecidableEq, Repr

/-- An import; a missing list of names differs from an empty one. -/
structure ImportDeclaration where
  request : String
  defaultBinding : Option Identifier
  namespaceBinding : Option Identifier
  namedBindings : Option (List ImportSpecifier)
deriving DecidableEq, Repr

structure ExportSpecifier where
  localName : String
  exported : String
deriving DecidableEq, Repr

/-- An export clause; without a list of names it exports all of the requested module. -/
structure ExportDeclaration where
  request : Option String
  specifiers : Option (List ExportSpecifier)
deriving DecidableEq, Repr

mutual

structure Expr where
  position : Position
  kind : ExprKind

inductive ExprKind where
  | number (value : Binary64)
  | bigInt (literal : String)
  | string (value : String)
  | boolean (value : Bool)
  | null
  | regExp (pattern flags : String)
  | template (quasis : List String) (parts : List Expr)
  | taggedTemplate (tag : Expr) (quasis rawQuasis : List String) (parts : List Expr)
  | identifier (name : String)
  | this
  | newTarget
  /-- An array literal; `none` is a hole. -/
  | array (elements : List (Option Expr))
  | object (properties : List Property)
  | member (object : Expr) (property : String)
  | computedMember (object property : Expr)
  | superMember (property : String)
  | superComputedMember (property : Expr)
  | call (callee : Expr) (arguments : List Expr)
  | superCall (arguments : List Expr)
  | construct (callee : Expr) (arguments : List Expr)
  | spread (inner : Expr)
  | function (function : FunctionNode)
  | classExpr (node : ClassNode)
  | unary (op : UnaryOp) (operand : Expr)
  | update (op : UpdateOp) (isPrefix : Bool) (target : Expr)
  | binary (op : BinaryOp) (lhs rhs : Expr)
  | logical (op : LogicalOp) (lhs rhs : Expr)
  /-- An assignment, with the operator of a compound one. -/
  | assignment (op : Option BinaryOp) (target : AssignmentTarget) (value : Expr)
  | conditional (test consequent alternate : Expr)
  | sequence (items : List Expr)
  | yield (value : Option Expr)
  | await (value : Expr)

inductive AssignmentTarget where
  | simple (target : Expr)
  | pattern (pattern : Pattern)

/-- What a declaration, a parameter or a pattern element binds. -/
inductive BindingTarget where
  | identifier (identifier : Identifier)
  | pattern (pattern : Pattern)

structure Pattern where
  position : Position
  shape : PatternShape
  elements : List PatternElement

/-- One element of a pattern; an element without a target is skipped over. -/
structure PatternElement where
  key : Option PropertyKey
  target : Option BindingTarget
  default : Option Expr
  isRest : Bool

inductive PropertyKey where
  | identifier (name : String)
  | string (name : String)
  | number (value : Binary64)
  | computed (key : Expr)

inductive Property where
  | keyValue (key : PropertyKey) (value : Expr)
  | shorthand (name : String)
  /-- A method, getter or setter, by the kind of the function. -/
  | method (key : PropertyKey) (function : FunctionNode)
  | spread (value : Expr)

structure FunctionNode where
  id : NodeId
  position : Position
  name : Option Identifier
  kind : FunctionKind
  /-- Function expressions see themselves under their own name. -/
  isExpression : Bool
  parameters : List Parameter
  body : FunctionBody
  isStrict : Bool

structure Parameter where
  position : Position
  target : BindingTarget
  default : Option Expr
  isRest : Bool

inductive FunctionBody where
  | block (block : Block)
  | expression (value : Expr)

structure Block where
  id : NodeId
  statements : List Statement

structure ClassNode where
  id : NodeId
  position : Position
  name : Option Identifier
  superClass : Option Expr
  isExpression : Bool
  members : List ClassMember

structure ClassMember where
  id : NodeId
  position : Position
  key : PropertyKey
  isStatic : Bool
  kind : MemberKind

inductive MemberKind where
  /-- A constructor, method, getter or setter, by the kind of the function. -/
  | method (function : FunctionNode)
  | field (initializer : Option Expr)

structure Declarator where
  position : Position
  target : BindingTarget
  init : Option Expr

structure Declaration where
  kind : DeclarationKind
  declarators : List Declarator

structure Statement where
  id : NodeId
  position : Position
  kind : StatementKind

inductive StatementKind where
  | empty
  | debugger
  | block (block : Block)
  | variableDecl (declaration : Declaration) (isExported : Bool)
  | expression (value : Expr)
  | ifElse (test : Expr) (consequent : Statement) (alternate : Option Statement)
  | while (test : Expr) (body : Statement)
  | doWhile (body : Statement) (test : Expr)
  | for (init : Option ForHead) (test update : Option Expr) (body : Statement)
  | forIn (target : ForHead) (source : Expr) (body : Statement)
  | forOf (target : ForHead) (source : Expr) (body : Statement)
  | continue (label : Option String)
  | break (label : Option String)
  | return (value : Option Expr)
  | labelled (label : String) (body : Statement)
  | throw (value : Expr)
  | tryCatch (block : Block) (handler : Option CatchClause) (finalizer : Option Block)
  | switch (discriminant : Expr) (cases : List SwitchCase)
  | functionDecl (function : FunctionNode) (exportKind : ExportKind)
  | classDecl (node : ClassNode) (exportKind : ExportKind)
  | importDecl (declaration : ImportDeclaration)
  | exportDecl (declaration : ExportDeclaration)
  | exportDefault (value : Expr)

/-- What stands first in the head of a `for` loop: what it starts with, or what a `for-in` or
`for-of` loop assigns in every iteration. -/
inductive ForHead where
  | declaration (declaration : Declaration)
  | expression (value : Expr)

structure CatchClause where
  id : NodeId
  position : Position
  parameter : Option BindingTarget
  body : Block

structure SwitchCase where
  test : Option Expr
  body : List Statement

end

structure Program where
  id : NodeId
  position : Position
  statements : List Statement
  isStrict : Bool
  /-- No node of the tree has this identity or a greater one. -/
  nextNodeId : Nat
  /-- Nodes that were derived from another node, whose type is theirs; a later entry wins. -/
  derivedFrom : List (NodeId × NodeId)

namespace Program

def typedNode (p : Program) (id : NodeId) : NodeId :=
  (p.derivedFrom.reverse.lookup id).getD id

end Program

end AccScript
