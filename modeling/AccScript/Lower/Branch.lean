import AccScript.Lower.Jump

/-!
# Blocks, branches, labels and protected statements
-/

namespace AccScript

def StatementKind.takesLabels : StatementKind → Bool
  | .labelled _ _ | .switch _ _ | .while _ _ | .doWhile _ _ | .for _ _ _ _ | .forIn _ _ _
  | .forOf _ _ _ => true
  | _ => false

/-- A case of a `switch`; without a test it is the default. -/
structure CasePart where
  test : Option (Lower Unit)
  body : Lower Unit

namespace Lower

open Asm

/-! ## Blocks -/

def bindFunction (name : String) (f : FunctionNode) (position : Position) : Lower Unit := do
  atPosition position
  defineFunction f
  declareVariable name

/-- Defines a function declaration, if the current scope binds its name. -/
def instantiateFunction (statement : Statement) : Lower Unit := do
  match statement.kind with
  | .functionDecl f _ =>
      match f.name with
      | some identifier =>
          let env ← read
          if (env.tree.findLocal? env.scope identifier.name).isSome then
            bindFunction identifier.name f statement.position
      | none => pure ()
  | _ => pure ()

/-- Defines the function declarations that the current scope binds. -/
def instantiateFunctions (statements : List Statement) : Lower Unit :=
  sequence (statements.map instantiateFunction)

def inVisibleScope (node : NodeId) (code : Lower Unit) : Lower Unit := do
  let scope ← scopeOf node
  withScope scope do
    enterScope scope
    code
    exitScope

def blockOf (node : NodeId) (functions : List Statement) (body : Lower Unit) : Lower Unit :=
  inVisibleScope node do
    instantiateFunctions functions
    body

/-! ## Branches -/

/-- The second branch of an `if`, after the first one. -/
def elseBranch (otherwise : Label) (alternate : Lower Unit) : Lower Unit := do
  let done ← freshLabel
  if !(← isTerminated) then branch done
  label otherwise
  alternate
  label done

def ifElse (node : NodeId) (functions : List Statement) (test : Label → Lower Unit)
    (consequent : Lower Unit) (alternate : Option (Lower Unit)) : Lower Unit :=
  inScopeOf node do
    instantiateFunctions functions
    let otherwise ← freshLabel
    test otherwise
    consequent
    match alternate with
    | some alternate => elseBranch otherwise alternate
    | none => label otherwise

def freshLabels {α : Type} : List α → Asm (List Label)
  | [] => return []
  | _ :: rest => do
      let label ← freshLabel
      return label :: (← freshLabels rest)

def caseTests (value : Register) (default : Option Label) :
    List (CasePart × Label) → Lower (Option Label)
  | [] => return default
  | (part, target) :: rest => do
      match part.test with
      | some test =>
          test
          binary .strictEq value
          emit (.jnez target)
          caseTests value default rest
      | none => caseTests value (some target) rest

def caseBodies : List (CasePart × Label) → Lower Unit
  | [] => pure ()
  | (part, target) :: rest => do
      label target
      part.body
      caseBodies rest

def switchOn (node : NodeId) (names : List String) (discriminant : Lower Unit)
    (functions : List Statement) (parts : List CasePart) : Lower Unit := do
  discriminant
  let value ← storeTemp
  inScopeOf node do
    let done ← freshLabel
    beginBreakable done names true
    instantiateFunctions functions
    let targets ← freshLabels parts
    let default ← caseTests value none (parts.zip targets)
    branch (default.getD done)
    within (.breakable done names true) (caseBodies (parts.zip targets))
    endBreakable
    label done
  freeTemps [value]

/-- A statement that only a `break` with one of its labels leaves. -/
def labelledBlock (names : List String) (body : Lower Unit) : Lower Unit := do
  let done ← freshLabel
  beginBreakable done names false
  within (.breakable done names false) body
  endBreakable
  label done

/-! ## Protected statements -/

def rethrowAfter (code : Lower Unit) : Lower Unit := do
  let exception ← storeTemp
  code
  lda exception
  emit .throw
  freeTemps [exception]

/-- Protected code with a handler. -/
def tryCatch (block handler : Lower Unit) : Lower Unit := do
  let onThrow ← freshLabel
  let done ← freshLabel
  let region ← beginTry onThrow
  block
  let fallsThrough := !(← isTerminated)
  endTry region
  if fallsThrough then branch done
  label onThrow
  handler
  label done

def finalizeNormally (finalizer : Lower Unit) (done : Label) : Lower Unit := do
  finalizer
  if !(← isTerminated) then branch done

/-- Protected code with a finalizer, which is copied to every way out. -/
def tryFinally (body finalizer : Lower Unit) : Lower Unit := do
  let boundary := Boundary.finalizer (← read).finalizers.length
  let onThrow ← freshLabel
  let done ← freshLabel
  startBoundary boundary
  let region ← beginTry onThrow
  withFinalizer region .block (← close (copyOf region .block true finalizer)) body
  let fallsThrough := !(← isTerminated)
  endTry region
  endBoundary boundary
  if fallsThrough then finalizeNormally (copyOf region .block false finalizer) done
  label onThrow
  rethrowAfter (copyOf region .block false finalizer)
  label done

def tryStatement (block : Lower Unit) (handler finalizer : Option (Lower Unit)) :
    Lower Unit :=
  match handler, finalizer with
  | some handler, none => tryCatch block handler
  | none, none => throw (.internal "try statement without catch or finally")
  | some handler, some finalizer => tryFinally (tryCatch block handler) finalizer
  | none, some finalizer => tryFinally block finalizer

def catchHandler (node : NodeId) (position : Position) (bind body : Lower Unit) :
    Lower Unit := do
  let scope ← scopeOf node
  withScope scope do
    atPosition position
    enterScope scope
    bind
    body
    exitScope

end Lower

end AccScript
