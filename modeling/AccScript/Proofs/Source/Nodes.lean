import AccScript.Source.Names

/-!
# The identities in a program

Nodes that own a scope, a declaration or a unit have an identity.  `Program.nodes` lists them with
the name that a declaration of the node has, and functions with themselves.  A parser gives every
node an identity of its own and tells the first one that it did not use: this is
`Program.WellNumbered`.

Parameters and the names of an assignment declare nothing of their own, so their identities do not
matter and are left out.
-/

namespace AccScript

/-- A node that owns a scope, a declaration or a unit. -/
structure SourceNode where
  id : NodeId
  /-- The name that is declared for the node, if any is. -/
  name : String := ""
  isClass : Bool := false
  function : Option FunctionNode := none

namespace SourceNode

def ofIdentifier (identifier : Identifier) : SourceNode where
  id := identifier.id
  name := identifier.name

/-- A declaration without a name of its own is a default export. -/
def declaredName (name : Option Identifier) : String :=
  (name.map Identifier.name).getD HiddenName.defaultExport

/-- The binding that holds the computed key of an instance field. -/
def fieldKey (member : NodeId) : String :=
  toString member ++ "fieldKey"

def ofMember (id : NodeId) (key : PropertyKey) (isStatic : Bool) (kind : MemberKind) :
    SourceNode where
  id
  name :=
    match key, kind, isStatic with
    | .computed ⟨_, .string _⟩, _, _ | .computed ⟨_, .number _⟩, _, _ => ""
    | .computed _, .field _, false => fieldKey id
    | _, _, _ => ""

def ofStatement (id : NodeId) : SourceNode where
  id
  name := HiddenName.defaultExport

end SourceNode

def ImportDeclaration.nodes (d : ImportDeclaration) : List SourceNode :=
  d.defaultBinding.toList.map SourceNode.ofIdentifier ++
    d.namespaceBinding.toList.map SourceNode.ofIdentifier ++
    (d.namedBindings.getD []).map fun specifier =>
      { id := specifier.id, name := specifier.localName.name }

mutual

def Expr.nodes : Expr → List SourceNode
  | ⟨_, kind⟩ => kind.nodes

def ExprKind.nodes : ExprKind → List SourceNode
  | .number _ | .bigInt _ | .string _ | .boolean _ | .null | .regExp _ _ => []
  | .identifier _ | .this | .newTarget | .superMember _ => []
  | .template _ parts => Expr.nodesOfList parts
  | .taggedTemplate tag _ _ parts => tag.nodes ++ Expr.nodesOfList parts
  | .array elements => Expr.nodesOfElements elements
  | .object properties => Property.nodesOfList properties
  | .member object _ => object.nodes
  | .computedMember object property => object.nodes ++ property.nodes
  | .superComputedMember property => property.nodes
  | .call callee arguments => callee.nodes ++ Expr.nodesOfList arguments
  | .superCall arguments => Expr.nodesOfList arguments
  | .construct callee arguments => callee.nodes ++ Expr.nodesOfList arguments
  | .spread inner => inner.nodes
  | .function f => f.nodes
  | .classExpr c => c.nodes
  | .unary _ operand => operand.nodes
  | .update _ _ target => target.nodes
  | .binary _ lhs rhs => lhs.nodes ++ rhs.nodes
  | .logical _ lhs rhs => lhs.nodes ++ rhs.nodes
  | .assignment _ target value => target.nodes ++ value.nodes
  | .conditional test consequent alternate => test.nodes ++ consequent.nodes ++ alternate.nodes
  | .sequence items => Expr.nodesOfList items
  | .yield value => Expr.nodesOfOption value
  | .await value => value.nodes

def Expr.nodesOfList : List Expr → List SourceNode
  | [] => []
  | e :: rest => e.nodes ++ Expr.nodesOfList rest

def Expr.nodesOfElements : List (Option Expr) → List SourceNode
  | [] => []
  | e :: rest => Expr.nodesOfOption e ++ Expr.nodesOfElements rest

def Expr.nodesOfOption : Option Expr → List SourceNode
  | none => []
  | some e => e.nodes

def AssignmentTarget.nodes : AssignmentTarget → List SourceNode
  | .simple target => target.nodes
  | .pattern pattern => pattern.nodes

def BindingTarget.nodes : BindingTarget → List SourceNode
  | .identifier _ => []
  | .pattern pattern => pattern.nodes

def BindingTarget.nodesOfOption : Option BindingTarget → List SourceNode
  | none => []
  | some target => target.nodes

def Pattern.nodes : Pattern → List SourceNode
  | ⟨_, _, elements⟩ => PatternElement.nodesOfList elements

def PatternElement.nodesOfList : List PatternElement → List SourceNode
  | [] => []
  | ⟨key, target, default, _⟩ :: rest =>
      PropertyKey.nodesOfOption key ++ BindingTarget.nodesOfOption target ++
        Expr.nodesOfOption default ++ PatternElement.nodesOfList rest

def PropertyKey.nodes : PropertyKey → List SourceNode
  | .computed key => key.nodes
  | _ => []

def PropertyKey.nodesOfOption : Option PropertyKey → List SourceNode
  | none => []
  | some key => key.nodes

def Property.nodesOfList : List Property → List SourceNode
  | [] => []
  | property :: rest => property.nodes ++ Property.nodesOfList rest

def Property.nodes : Property → List SourceNode
  | .keyValue key value => key.nodes ++ value.nodes
  | .shorthand _ => []
  | .method key f => key.nodes ++ f.nodes
  | .spread value => value.nodes

def FunctionNode.nodes : FunctionNode → List SourceNode
  | ⟨id, position, name, kind, isExpression, parameters, body, isStrict⟩ =>
      { id
        name := SourceNode.declaredName name
        function := some ⟨id, position, name, kind, isExpression, parameters, body, isStrict⟩ } ::
      Parameter.nodesOfList parameters ++ body.nodes

def Parameter.nodesOfList : List Parameter → List SourceNode
  | [] => []
  | ⟨_, target, default, _⟩ :: rest =>
      target.nodes ++ Expr.nodesOfOption default ++ Parameter.nodesOfList rest

def FunctionBody.nodes : FunctionBody → List SourceNode
  | .block block => block.nodes
  | .expression value => value.nodes

def Block.nodes : Block → List SourceNode
  | ⟨id, statements⟩ => { id } :: Statement.nodesOfList statements

def Block.nodesOfOption : Option Block → List SourceNode
  | none => []
  | some block => block.nodes

def ClassNode.nodes : ClassNode → List SourceNode
  | ⟨id, _, name, superClass, _, members⟩ =>
      Expr.nodesOfOption superClass ++
        { id, name := SourceNode.declaredName name, isClass := true } ::
          ClassMember.nodesOfList members

def ClassMember.nodesOfList : List ClassMember → List SourceNode
  | [] => []
  | ⟨id, _, key, isStatic, kind⟩ :: rest =>
      SourceNode.ofMember id key isStatic kind ::
        (key.nodes ++ kind.nodes ++ ClassMember.nodesOfList rest)

def MemberKind.nodes : MemberKind → List SourceNode
  | .method f => f.nodes
  | .field initializer => Expr.nodesOfOption initializer

def Declaration.nodes : Declaration → List SourceNode
  | ⟨_, declarators⟩ => Declarator.nodesOfList declarators

def Declarator.nodesOfList : List Declarator → List SourceNode
  | [] => []
  | ⟨_, target, init⟩ :: rest =>
      target.boundNames.map SourceNode.ofIdentifier ++ target.nodes ++
        Expr.nodesOfOption init ++ Declarator.nodesOfList rest

def Statement.nodes : Statement → List SourceNode
  | ⟨id, _, kind⟩ => SourceNode.ofStatement id :: kind.nodes

def Statement.nodesOfList : List Statement → List SourceNode
  | [] => []
  | statement :: rest => statement.nodes ++ Statement.nodesOfList rest

def Statement.nodesOfOption : Option Statement → List SourceNode
  | none => []
  | some statement => statement.nodes

def StatementKind.nodes : StatementKind → List SourceNode
  | .empty | .debugger | .continue _ | .break _ | .exportDecl _ => []
  | .block block => block.nodes
  | .variableDecl declaration _ => declaration.nodes
  | .expression value => value.nodes
  | .ifElse test consequent alternate =>
      test.nodes ++ consequent.nodes ++ Statement.nodesOfOption alternate
  | .while test body => test.nodes ++ body.nodes
  | .doWhile body test => test.nodes ++ body.nodes
  | .for init test update body =>
      ForHead.nodesOfOption init ++ Expr.nodesOfOption test ++ Expr.nodesOfOption update ++
        body.nodes
  | .forIn target source body => source.nodes ++ target.nodes ++ body.nodes
  | .forOf target source body => source.nodes ++ target.nodes ++ body.nodes
  | .return value => Expr.nodesOfOption value
  | .labelled _ body => body.nodes
  | .throw value => value.nodes
  | .tryCatch block handler finalizer =>
      block.nodes ++ CatchClause.nodesOfOption handler ++ Block.nodesOfOption finalizer
  | .switch discriminant cases => discriminant.nodes ++ SwitchCase.nodesOfList cases
  | .functionDecl f _ => f.nodes
  | .classDecl c _ => c.nodes
  | .importDecl declaration => declaration.nodes
  | .exportDefault value => value.nodes

def ForHead.nodes : ForHead → List SourceNode
  | .declaration declaration => declaration.nodes
  | .expression value => value.nodes

def ForHead.nodesOfOption : Option ForHead → List SourceNode
  | none => []
  | some head => head.nodes

def CatchClause.nodes : CatchClause → List SourceNode
  | ⟨id, _, parameter, body⟩ =>
      { id } :: ((parameter.map BindingTarget.boundNames).getD []).map SourceNode.ofIdentifier ++
        BindingTarget.nodesOfOption parameter ++ body.nodes

def CatchClause.nodesOfOption : Option CatchClause → List SourceNode
  | none => []
  | some clause => clause.nodes

def SwitchCase.nodesOfList : List SwitchCase → List SourceNode
  | [] => []
  | ⟨test, body⟩ :: rest =>
      Expr.nodesOfOption test ++ Statement.nodesOfList body ++ SwitchCase.nodesOfList rest

end

namespace Program

/-- Every node of a program that owns a scope, a declaration or a unit. -/
def nodes (p : Program) : List SourceNode :=
  { id := p.id } :: Statement.nodesOfList p.statements

/-- Identities are distinct and below the first one that is still free. -/
structure WellNumbered (p : Program) : Prop where
  distinct : (p.nodes.map SourceNode.id).Nodup
  below : ∀ node ∈ p.nodes, node.id < p.nextNodeId

instance (p : Program) : Decidable p.WellNumbered :=
  decidable_of_iff ((p.nodes.map SourceNode.id).Nodup ∧ ∀ node ∈ p.nodes, node.id < p.nextNodeId)
    ⟨fun h => ⟨h.1, h.2⟩, fun h => ⟨h.distinct, h.below⟩⟩

end Program

end AccScript
