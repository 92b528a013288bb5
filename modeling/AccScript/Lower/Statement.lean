import AccScript.Lower.Expression
import AccScript.Lower.Loop

/-!
# Lowering of statements

The code of declarations and statements, by recursion on the tree.
-/

namespace AccScript

open Asm Lower

/-! ## Declarations -/

/-- Initializes what a declarator binds; a `var` without an initializer keeps its value. -/
def Declarator.lower (kind : DeclarationKind) : Declarator → Lower Unit
  | ⟨position, .identifier identifier, some init⟩ => do
      atPosition position
      init.lower
      declareVariable identifier.name
  | ⟨position, .identifier identifier, none⟩ => do
      atPosition position
      if kind ≠ .var then
        constant .undefined
        declareVariable identifier.name
  | ⟨position, .pattern p, init⟩ => do
      atPosition position
      (Expr.lower? init).getD (constant .undefined)
      onTemp (p.lower .declare)

def Declaration.lower (d : Declaration) : Lower Unit :=
  sequence (d.declarators.map (Declarator.lower d.kind))

def Declarator.lowerIteration (value : Register) (d : Declarator) : Lower Unit :=
  match d.target with
  | .identifier identifier => do
      lda value
      declareVariable identifier.name
  | .pattern p => p.lower .declare value

/-- What a `for` loop starts with. -/
def ForHead.lower : ForHead → Lower Unit
  | .declaration d => d.lower
  | .expression value => value.lower

/-- Gives what a loop over a collection assigns the value of a register. -/
def ForHead.lowerIteration (value : Register) : ForHead → Lower Unit
  | .declaration d => sequence (d.declarators.map (Declarator.lowerIteration value))
  | .expression target => storeRegister target.lowerTarget value

def Expr.lowerTest : Option Expr → Label → Lower Unit
  | some test, ifFalse => test.lowerCondition ifFalse
  | none, _ => pure ()

/-! ## Statements -/

mutual

def Statement.lower : Statement → Lower Unit
  | ⟨id, position, kind⟩ => visiting do
      atPosition position
      kind.lower id position []
termination_by structural s => s

/-- The code of a statement under the given labels. -/
def StatementKind.lower (id : NodeId) (position : Position) (names : List String) :
    StatementKind → Lower Unit
  | .empty => pure ()
  | .debugger => emit .debugger
  | .block block => block.lower
  | .variableDecl declaration _ => declaration.lower
  | .expression value => value.lower
  | .ifElse test consequent alternate =>
      ifElse id (consequent :: alternate.toList) test.lowerCondition consequent.lower
        (Statement.lower? alternate)
  | .while test body => whileLoop id names test.lowerCondition body.lower
  | .doWhile body test => doWhileLoop id names body.lower test.lower
  | .for init test update body =>
      forLoop id names ((init.map ForHead.lower).getD (pure ())) (Expr.lowerTest test)
        ((Expr.lower? update).getD (pure ())) body.lower
  | .forIn target source body =>
      collectionLoop id source.lower fun scope =>
        forInLoop scope names (fun key => target.lowerIteration key) body.lower
  | .forOf target source body =>
      collectionLoop id source.lower fun scope =>
        forOfLoop scope names (fun value => target.lowerIteration value) body.lower
  | .continue name => continueStatement name position
  | .break name => breakStatement name position
  | .return value => returnStatement value (Expr.lower? value)
  | .labelled name body => inScopeOf id (body.lowerLabelled (names ++ [name]))
  | .throw value => throwStatement value.lower
  | .tryCatch block handler finalizer =>
      tryStatement block.lower (CatchClause.lower? handler) (Block.lower? finalizer)
  | .switch discriminant cases =>
      switchOn id names discriminant.lower (cases.flatMap SwitchCase.body)
        (SwitchCase.lowerEach cases)
  | .functionDecl _ _ => pure ()
  | .classDecl node exportKind => node.lower (declaredName? node.name exportKind)
  | .importDecl _ => pure ()
  | .exportDecl _ => pure ()
  | .exportDefault value => do
      value.lower
      declareVariable HiddenName.defaultExport
termination_by structural kind => kind

def Statement.lowerLabelled : Statement → List String → Lower Unit
  | ⟨id, position, kind⟩, names => visiting do
      instantiateFunction ⟨id, position, kind⟩
      atPosition position
      if kind.takesLabels then kind.lower id position names
      else labelledBlock names (kind.lower id position [])
termination_by structural s => s

def Statement.lower? : Option Statement → Option (Lower Unit)
  | some s => some s.lower
  | none => none
termination_by structural s => s

def Statement.lowerEach : List Statement → Lower Unit
  | [] => pure ()
  | s :: rest => do
      s.lower
      Statement.lowerEach rest
termination_by structural statements => statements

def Block.lower : Block → Lower Unit
  | ⟨id, statements⟩ => blockOf id statements (Statement.lowerEach statements)
termination_by structural block => block

def Block.lower? : Option Block → Option (Lower Unit)
  | some block => some block.lower
  | none => none
termination_by structural block => block

def CatchClause.lower : CatchClause → Lower Unit
  | ⟨id, position, parameter, body⟩ =>
      catchHandler id position ((BindingTarget.lower? parameter .declare).getD (pure ())) body.lower
termination_by structural clause => clause

def CatchClause.lower? : Option CatchClause → Option (Lower Unit)
  | some clause => some clause.lower
  | none => none
termination_by structural clause => clause

def SwitchCase.lower : SwitchCase → CasePart
  | ⟨test, body⟩ => { test := Expr.lower? test, body := Statement.lowerEach body }
termination_by structural c => c

def SwitchCase.lowerEach : List SwitchCase → List CasePart
  | [] => []
  | c :: rest => c.lower :: SwitchCase.lowerEach rest
termination_by structural cases => cases

end

end AccScript
