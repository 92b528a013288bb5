import AccScript.Analysis
import AccScript.Assembler.Control

/-!
# The context of lowering

Lowering makes the code of one unit. What does not change from instruction to instruction (the
survey, the scope, the enclosing finalizers) is an environment; the rest is the state of the
assembler. Every expression leaves its value in the accumulator, and every piece of code gives
back the temporaries it takes.
-/

namespace AccScript

structure Env where
  survey : Survey
  options : Options
  /-- The internal name of each unit. -/
  names : OrderedMap NodeId String
  /-- The scope that names are resolved from. -/
  scope : ScopeId
  /-- The variable scope of the unit. -/
  functionScope : ScopeId
  isStrict : Bool
  /-- The code of the enclosing finalizers, the outermost first. -/
  finalizers : List Code := []
  /-- What encloses the code in the source, the innermost first. -/
  enclosing : List Enclosure := []
  /-- What follows `super(...)` in the constructor of this unit. -/
  fieldInit : Code := pure ()
  /-- Whether the instance fields of a class are being initialized. -/
  inFields : Bool := false

abbrev Lower := ReaderT Env Asm

namespace Env

def tree (env : Env) : ScopeTree :=
  env.survey.tree

def unitKind? (env : Env) : Option FunctionKind := do
  let scope ← env.tree.scope? env.functionScope
  let facts ← env.survey.functions.get? scope.node
  some facts.kind

def isDerivedConstructor (env : Env) (facts : FunctionFacts) : Bool :=
  facts.kind = .constructor &&
    match facts.owner with
    | some owner => env.survey.derivedClasses.contains owner
    | none => false

/-- Whether code in this scope is part of the constructor of a derived class, arrow functions
included. -/
def inDerivedConstructor (env : Env) : Bool :=
  match env.tree.scope? (env.tree.nearestNonArrowScope env.scope) with
  | some scope =>
      match env.survey.functions.get? scope.node with
      | some facts => env.isDerivedConstructor facts
      | none => false
  | none => false

/-- Whether `super(...)` in this scope belongs to the constructor of this very unit. -/
def callsOwnConstructor (env : Env) : Bool :=
  env.tree.nearestNonArrowScope env.scope = env.functionScope

def site (env : Env) (subject : Subject) (boundaries : List Boundary) : Site where
  subject
  scope := env.scope
  functionScope := env.functionScope
  boundaries
  enclosing := env.enclosing
  inFields := env.inFields

end Env

namespace Lower

def withScope {α : Type} (scope : ScopeId) (code : Lower α) : Lower α :=
  fun env => code { env with scope }

def within {α : Type} (enclosure : Enclosure) (code : Lower α) : Lower α :=
  fun env => code { env with enclosing := enclosure :: env.enclosing }

def withFinalizer {α : Type} (region : Nat) (kind : FinalizerKind) (finalizer : Code)
    (code : Lower α) : Lower α :=
  fun env => within (.guarded region kind env.scope) code
    { env with finalizers := env.finalizers ++ [finalizer] }

def copyOf (region : Nat) (kind : FinalizerKind) (isInlined : Bool) (finalizer : Lower Unit) :
    Lower Unit := do
  let env ← read
  let start := (← get).code.size
  within (.finalizer region isInlined) finalizer
  Asm.noteCopy region kind env.scope start

/-- Runs the code of a statement and keeps note of it. -/
def visiting (code : Lower Unit) : Lower Unit := do
  let before ← read
  let a ← get
  code
  let after ← read
  Asm.noteVisit (a.control before.scope) after.scope

/-- Code with its environment, to be run elsewhere. -/
def close (code : Lower Unit) : Lower Code :=
  fun env => pure (code env)

def scopeOf (node : NodeId) : Lower ScopeId := do
  (← read).survey.scopeOf node

def inScopeOf {α : Type} (node : NodeId) (code : Lower α) : Lower α := do
  withScope (← scopeOf node) code

def internalName (node : NodeId) : Lower String := do
  match (← read).names.get? node with
  | some name => return name
  | none => throw (.internal ("function node " ++ toString node ++ " has no internal name"))

def variableData (v : VariableId) : Lower Variable := do
  orBroken ((← read).tree.var? v)

def unitVariableScope : Lower VariableScope := do
  let env ← read
  orBroken (env.tree.variableScope? env.functionScope)

def emitAt (subject : Subject) (instruction : Instruction) : Lower Unit :=
  fun env => Asm.emitSited (env.site subject) instruction

def enterEnvironment (scope : ScopeId) (slotNames : List String) : Lower Unit := do
  emitAt (.environment scope) (← Asm.environmentInstruction slotNames)

/-- Runs pieces of code one after another. -/
def sequence : List (Lower Unit) → Lower Unit
  | [] => pure ()
  | code :: rest => do
      code
      sequence rest

end Lower

end AccScript
