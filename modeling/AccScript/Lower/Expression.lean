import AccScript.Lower.Call
import AccScript.Lower.ClassBody
import AccScript.Lower.Operator
import AccScript.Lower.Pattern

/-!
# Lowering of expressions

The code of every expression, pattern and class, by recursion on the tree. Functions are units of
their own, so the recursion stops at them.
-/

namespace AccScript

def Expr.name? (e : Expr) : Option String :=
  match e.kind with
  | .identifier name => some name
  | _ => none

open Asm Lower

mutual

/-- Leaves the value of an expression in the accumulator. -/
def Expr.lower : Expr → Lower Unit
  | ⟨position, kind⟩ => kind.lower position
termination_by structural e => e

def ExprKind.lower (position : Position) : ExprKind → Lower Unit
  | .number value => loadNumber value
  | .bigInt literal => loadBigInt literal
  | .string value => loadString value
  | .boolean value => constant (if value then .true else .false)
  | .null => constant .null
  | .regExp source flags => regExp source flags position
  | .template quasis parts => template quasis (Expr.lowerEach parts)
  | .taggedTemplate tag quasis rawQuasis parts =>
      taggedTemplate tag.lowerCallee quasis rawQuasis (Expr.lowerEach parts)
  | .identifier name => loadVariable name
  | .this => loadThis
  | .newTarget => loadVariable HiddenName.newTarget
  | .array elements => arrayLiteral elements (Expr.lowerElements elements)
  | .object properties => objectLiteral (leadingLiterals properties) (Property.lowerEach properties)
  | .member object property => do
      object.lower
      emit (.ldObjByName (← intern property))
  | .computedMember object property => valueOf (propertyTarget object.lower property.lowerKey)
  | .superMember property => valueOf (superTarget (pure (.name property)))
  | .superComputedMember property => valueOf (superTarget property.lowerKey)
  | .call callee arguments => call callee.lowerCallee (Expr.lowerItems arguments)
  | .superCall arguments => superCall (Expr.lowerItems arguments)
  | .construct callee arguments => construct position callee.lower (Expr.lowerItems arguments)
  | .spread _ => throw (.internal "spread element outside of a call or array literal")
  | .function f => defineFunction f
  | .classExpr node => node.lower none
  | .unary op operand => unaryOperation op operand.name? operand.lower operand.lowerDelete
  | .update op isPrefix target => updateOperation op isPrefix target.lowerTarget
  | .binary op lhs rhs => binaryOperation op lhs.lower rhs.lower
  | .logical op lhs rhs => logicalOperation op lhs.lower rhs.lower
  | .assignment none (.simple target) value => assign target.lowerTarget value.lower
  | .assignment (some op) (.simple target) value =>
      compoundAssign op target.lowerTarget value.lower
  | .assignment none (.pattern p) value => do
      value.lower
      let source ← storeTemp
      p.lower .assign source
      lda source
      freeTemps [source]
  | .assignment (some _) (.pattern _) _ =>
      throw (.unsupported "compound assignment to a pattern" position)
  | .conditional test consequent alternate =>
      conditional test.lowerCondition consequent.lower alternate.lower
  | .sequence items => sequence (Expr.lowerEach items)
  | .yield _ => throw (.unsupported "yield" position)
  | .await _ => throw (.unsupported "await" position)
termination_by structural kind => kind

def Expr.lowerEach : List Expr → List (Lower Unit)
  | [] => []
  | e :: rest => e.lower :: Expr.lowerEach rest
termination_by structural es => es

def Expr.lower? : Option Expr → Option (Lower Unit)
  | some e => some e.lower
  | none => none
termination_by structural e => e

/-- An array element or argument. -/
def Expr.lowerItem : Expr → ArrayItem
  | ⟨_, .spread inner⟩ => .spread inner.lower
  | ⟨position, kind⟩ => .value (kind.lower position)
termination_by structural e => e

def Expr.lowerItems : List Expr → List ArrayItem
  | [] => []
  | e :: rest => e.lowerItem :: Expr.lowerItems rest
termination_by structural es => es

def Expr.lowerElement : Option Expr → ArrayItem
  | some e => e.lowerItem
  | none => .hole
termination_by structural e => e

def Expr.lowerElements : List (Option Expr) → List ArrayItem
  | [] => []
  | e :: rest => Expr.lowerElement e :: Expr.lowerElements rest
termination_by structural es => es

/-- Jumps if a condition fails. Comparisons branch on their result, and `&&` and `||` make no
value. -/
def Expr.lowerCondition : Expr → Label → Lower Unit
  | ⟨_, .binary op lhs rhs⟩, ifFalse =>
      if op.yieldsBoolean then comparison op lhs.lower rhs.lower ifFalse
      else jumpUnless (binaryOperation op lhs.lower rhs.lower) ifFalse
  | ⟨_, .logical .and lhs rhs⟩, ifFalse => do
      lhs.lowerCondition ifFalse
      rhs.lowerCondition ifFalse
  | ⟨_, .logical .or lhs rhs⟩, ifFalse =>
      disjunction lhs.lowerCondition rhs.lowerCondition ifFalse
  | ⟨_, .unary .not operand⟩, ifFalse => do
      operand.lower
      jumpIfTrue ifFalse
  | ⟨position, kind⟩, ifFalse => jumpUnless (kind.lower position) ifFalse
termination_by structural e => e

def Expr.lowerKey : Expr → Lower KeyOperand
  | ⟨_, .string name⟩ => pure (.name name)
  | ⟨_, .number value⟩ => pure (.ofNumber value)
  | ⟨position, kind⟩ => valueKey (kind.lower position)
termination_by structural e => e

/-- Evaluates an assignment target. -/
def Expr.lowerTarget : Expr → Lower Target
  | ⟨_, .identifier name⟩ => pure (.variable name)
  | ⟨_, .member object property⟩ => propertyTarget object.lower (pure (.name property))
  | ⟨_, .computedMember object property⟩ => propertyTarget object.lower property.lowerKey
  | ⟨_, .superMember property⟩ => superTarget (pure (.name property))
  | ⟨_, .superComputedMember property⟩ => superTarget property.lowerKey
  | ⟨position, _⟩ => throw (.unsupported "assignment to this kind of target" position)
termination_by structural e => e

def Expr.lowerCallee : Expr → Lower Callee
  | ⟨_, .member object property⟩ =>
      propertyCallee (propertyTarget object.lower (pure (.name property)))
  | ⟨_, .computedMember object property⟩ =>
      propertyCallee (propertyTarget object.lower property.lowerKey)
  | ⟨_, .superMember property⟩ => propertyCallee (superTarget (pure (.name property)))
  | ⟨_, .superComputedMember property⟩ => propertyCallee (superTarget property.lowerKey)
  | ⟨position, kind⟩ => plainCallee (kind.lower position)
termination_by structural e => e

def Expr.lowerDelete : Expr → Lower Unit
  | ⟨_, .identifier name⟩ => deleteName name
  | ⟨_, .member object property⟩ => deleteProperty object.lower (pure (.name property))
  | ⟨_, .computedMember object property⟩ => deleteProperty object.lower property.lowerKey
  | ⟨_, .superMember _⟩ => emit .throwDeleteSuperProperty
  | ⟨_, .superComputedMember _⟩ => emit .throwDeleteSuperProperty
  | ⟨position, kind⟩ => deleteValue (kind.lower position)
termination_by structural e => e

def PropertyKey.lower : PropertyKey → Lower KeyOperand
  | .identifier name => pure (.name name)
  | .string name => pure (.name name)
  | .number value => pure (.ofNumber value)
  | .computed key => key.lowerKey
termination_by structural key => key

/-- The value of a key in brackets. -/
def PropertyKey.lowerComputed : PropertyKey → Option (Lower Unit)
  | .computed key => some key.lower
  | _ => none
termination_by structural key => key

def Property.lower : Property → ObjectPart
  | .keyValue key value => .value key.lower value.lower
  | .shorthand name => .shorthand name
  | .method key f =>
      match f.kind with
      | .getter | .setter => .accessor key.literalName? key.lower f
      | _ => .method key.lower f
  | .spread value => .spread value.lower
termination_by structural property => property

def Property.lowerEach : List Property → List ObjectPart
  | [] => []
  | property :: rest => property.lower :: Property.lowerEach rest
termination_by structural properties => properties

/-- Takes the value of a register apart. -/
def Pattern.lower : Pattern → BindingMode → Register → Lower Unit
  | ⟨_, shape, elements⟩, mode, value =>
      bindPattern shape value (PatternElement.lowerEach elements mode)
termination_by structural p => p

def PatternElement.lowerEach : List PatternElement → BindingMode → List PatternPart
  | [], _ => []
  | element :: rest, mode => element.lower mode :: PatternElement.lowerEach rest mode
termination_by structural elements => elements

def PatternElement.lower : PatternElement → BindingMode → PatternPart
  | ⟨some key, target, default, isRest⟩, mode =>
      { key := key.lower, target := BindingTarget.lower? target mode
        default := Expr.lower? default, isRest }
  | ⟨none, target, default, isRest⟩, mode =>
      { key := impliedKey target, target := BindingTarget.lower? target mode
        default := Expr.lower? default, isRest }
termination_by structural element => element

/-- Stores the accumulator to a target. -/
def BindingTarget.lower : BindingTarget → BindingMode → Lower Unit
  | .identifier identifier, mode => bindName identifier.name mode
  | .pattern p, mode => onTemp (p.lower mode)
termination_by structural target => target

def BindingTarget.lower? : Option BindingTarget → BindingMode → Option (Lower Unit)
  | some target, mode => some (target.lower mode)
  | none, _ => none
termination_by structural target => target

def ClassNode.lower : ClassNode → Option String → Lower Unit
  | ⟨id, position, name, superClass, isExpression, members⟩, binding =>
      defineClass ⟨id, position, name, superClass, isExpression, members⟩
        (Expr.lower? superClass) (ClassMember.lowerEach members) binding
termination_by structural c => c

def ClassMember.lowerEach : List ClassMember → List MemberPart
  | [] => []
  | member :: rest => member.lower :: ClassMember.lowerEach rest
termination_by structural members => members

def ClassMember.lower : ClassMember → MemberPart
  | ⟨id, position, key, isStatic, kind⟩ =>
      { id, position, isStatic
        name := key.literalName?
        key := key.lower
        computedKey := key.lowerComputed
        content := kind.lower }
termination_by structural member => member

def MemberKind.lower : MemberKind → MemberContent
  | .method f => .method f
  | .field initializer => .field (Expr.lower? initializer)
termination_by structural kind => kind

end

end AccScript
