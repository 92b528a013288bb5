import AccScript.Source.Tree

/-!
# Names in the program tree

The names that targets and declarations bind, and simple questions about nodes.
-/

namespace AccScript

mutual

def BindingTarget.boundNames : BindingTarget → List Identifier
  | .identifier identifier => [identifier]
  | .pattern pattern => pattern.boundNames
termination_by structural target => target

def Pattern.boundNames : Pattern → List Identifier
  | ⟨_, _, elements⟩ => PatternElement.boundNamesOfList elements
termination_by structural pattern => pattern

def PatternElement.boundNamesOfList : List PatternElement → List Identifier
  | [] => []
  | element :: rest => element.boundNames ++ PatternElement.boundNamesOfList rest
termination_by structural elements => elements

def PatternElement.boundNames : PatternElement → List Identifier
  | ⟨_, some target, _, _⟩ => target.boundNames
  | ⟨_, none, _, _⟩ => []
termination_by structural element => element

end

def declaredName? : Option Identifier → ExportKind → Option String
  | some identifier, _ => some identifier.name
  | none, .default => some HiddenName.defaultExport
  | none, _ => none

def PropertyKey.literalName? : PropertyKey → Option String
  | .identifier name => some name
  | .string name => some name
  | .number value => some value.propertyName
  | .computed _ => none

namespace FunctionNode

/-- The number of parameters before the first with a default or the rest parameter. -/
def parameterLength (f : FunctionNode) : Nat :=
  (f.parameters.takeWhile fun p => p.default.isNone && !p.isRest).length

end FunctionNode

namespace ClassMember

def constructor? (m : ClassMember) : Option FunctionNode :=
  match m.kind with
  | .method function => if function.kind = .constructor then some function else none
  | .field _ => none

end ClassMember

namespace ClassNode

def constructor? (c : ClassNode) : Option FunctionNode :=
  c.members.findSome? ClassMember.constructor?

end ClassNode

def Expr.isUndefined (e : Expr) : Bool :=
  match e.kind with
  | .identifier name => name = "undefined"
  | _ => false

end AccScript
