import AccScript.Lower.Reference

/-!
# Jumps out of statements

A jump leaves the boundaries between it and its target, the innermost first: environments of
loops are popped, and finalizers are copied in front of the jump. A copy of a finalizer runs as
if control were already outside of what it finalizes.
-/

namespace AccScript

def Boundary.region? : Boundary → Option Nat
  | .region index => some index
  | _ => none

def Boundary.isFinalizer : Boundary → Bool
  | .finalizer _ => true
  | _ => false

/-- Whether what is returned is `this`: nothing, `this` itself or `undefined`. -/
def returnsThis : Option Expr → Bool
  | none => true
  | some value =>
      match value.kind with
      | .this => true
      | _ => value.isUndefined

def Expr.isSuperCall (e : Expr) : Bool :=
  match e.kind with
  | .superCall _ => true
  | _ => false

namespace Lower

open Asm

/-! ## Leaving boundaries -/

def outside (left rest : List Boundary) (code : Code) : Code := do
  let regions := (left.filterMap Boundary.region?).reverse
  modify fun a => { a with boundaries := rest }
  regions.forM closeTry
  code
  regions.forM resumeTry
  modify fun a => { a with boundaries := left ++ a.boundaries }

def unwindFrom (finalizers : List Code) (depth : Nat) (left : List Boundary) :
    List Boundary → Code
  | [] => pure ()
  | boundary :: rest =>
      if rest.length < depth then pure ()
      else do
        match boundary with
        | .environment _ => popEnvironment
        | .finalizer index =>
            outside (left ++ [boundary]) rest (← orBroken finalizers[index]?)
        | _ => pure ()
        unwindFrom finalizers depth (left ++ [boundary]) rest

/-- Leaves all boundaries but the outermost `depth` ones. -/
def unwind (depth : Nat) : Lower Unit := do
  let env ← read
  unwindFrom env.finalizers depth [] (← get).boundaries

/-! ## Break, continue and return -/

/-- Jumps to a statement, whose own boundary stays. -/
def jumpTo (word : JumpWord) (name : Option String) (target : JumpTarget) : Lower Unit := do
  let start := (← get).code.size
  unwind (target.depth + 1)
  emitAt (.jump word name start) (.jmp target.label)

def noTarget (word : String) (position : Position) : Failure :=
  .internal ("no " ++ word ++ " target at " ++ toString position.line ++ ":" ++
    toString position.column)

def breakStatement (name : Option String) (position : Position) : Lower Unit := do
  match (← get).findBreakable? name with
  | some target => jumpTo .break name target
  | none => throw (noTarget "break" position)

def continueStatement (name : Option String) (position : Position) : Lower Unit := do
  match (← get).findContinuable? name with
  | some target => jumpTo .continue name target
  | none => throw (noTarget "continue" position)

/-- Leaves all boundaries with the accumulator. A finalizer may change it, so it is kept in a
register. -/
def unwindWithValue : Lower Unit := do
  if (← get).boundaries.any Boundary.isFinalizer then
    let value ← storeTemp
    unwind 0
    lda value
    freeTemps [value]
  else unwind 0

def returnAccumulator : Lower Unit := do
  let start := (← get).code.size
  unwindWithValue
  emitAt (.result start) .return

/-- The value of a `return` in a derived constructor unless it is undefined, else `this`, which
must be initialized. -/
def valueOrThis (value : Lower Unit) : Lower Unit := do
  let useValue ← freshLabel
  let check ← freshLabel
  value
  let returned ← storeTemp
  constant .undefined
  binary .strictEq returned
  emit (.jeqz useValue)
  loadVariable HiddenName.this
  branch check
  label useValue
  lda returned
  label check
  requireThis
  freeTemps [returned]

def derivedReturnValue (value : Option Expr) (code : Lower Unit) : Lower Unit :=
  if returnsThis value then loadThis
  else if value.any Expr.isSuperCall then code
  else valueOrThis code

def returnStatement (value : Option Expr) (code : Option (Lower Unit)) : Lower Unit := do
  let env ← read
  let isConstructor := env.unitKind? = some .constructor
  if isConstructor && env.inDerivedConstructor then
    derivedReturnValue value (code.getD (pure ()))
    returnAccumulator
  else
    match code with
    | some code =>
        code
        returnAccumulator
    | none =>
        if isConstructor then
          loadVariable HiddenName.this
          returnAccumulator
        else
          let start := (← get).code.size
          unwind 0
          emitAt (.result start) .returnUndefined

/-! ## Throw -/

/-- Pops the environments up to the innermost protected range, whose handler runs outside of
them. -/
def popToRegion : List Boundary → Code
  | [] => pure ()
  | .region _ :: _ => pure ()
  | .environment _ :: rest => do
      popEnvironment
      popToRegion rest
  | _ :: rest => popToRegion rest

def throwStatement (value : Lower Unit) : Lower Unit := do
  value
  popToRegion (← get).boundaries
  emitAt .exception .throw

end Lower

end AccScript
