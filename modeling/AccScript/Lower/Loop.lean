import AccScript.Lower.Branch
import AccScript.Lower.Pattern

/-!
# Loops

A loop whose variables are captured has a new environment in every iteration. It is pushed inside
of the boundary of the loop, so that a jump out of the loop pops it.
-/

namespace AccScript.Lower

open Asm

/-! ## Environments of iterations -/

def loopSlots (scope : ScopeId) : Lower (Option (List String)) := do
  let data ← orBroken ((← read).tree.scope? scope)
  return (data.env.filter LexicalEnv.isNeeded).map LexicalEnv.slotNames

/-- Enters the environment of an iteration. -/
def pushIteration (scope : ScopeId) : Option (List String) → Lower Unit
  | some slots => do
      enterEnvironment scope slots
      startBoundary (.environment scope)
  | none => pure ()

/-- Leaves the environment of an iteration. -/
def popIteration (scope : ScopeId) : Option (List String) → Code
  | some _ => do
      endBoundary (.environment scope)
      popEnvironment
  | none => pure ()

def slotTemps : List String → Asm (List Register)
  | [] => return []
  | _ :: rest => do
      let temp ← getTemp
      return temp :: (← slotTemps rest)

def saveSlots (slot : Nat) : List Register → Lower Unit
  | [] => pure ()
  | temp :: rest => do
      emitAt .iteration (.ldLexVar 0 slot)
      sta temp
      saveSlots (slot + 1) rest

def restoreSlots (slot : Nat) : List Register → Lower Unit
  | [] => pure ()
  | temp :: rest => do
      lda temp
      emitAt .iteration (.stLexVar 0 slot)
      restoreSlots (slot + 1) rest

/-- Gives the next iteration a new environment with the present values. -/
def renewIteration (scope : ScopeId) : Option (List String) → Lower Unit
  | some slots => do
      let temps ← slotTemps slots
      saveSlots 0 temps
      popEnvironment
      enterEnvironment scope slots
      restoreSlots 0 temps
      freeTemps temps
  | none => pure ()

/-- Code inside of an iteration. -/
def inIteration (scope : ScopeId) : Option (List String) → Lower Unit → Lower Unit
  | some _, code => within (.iteration scope) code
  | none, code => code

def loopBody (names : List String) (next : Label) (body : Lower Unit) : Lower Unit := do
  beginContinuable next names
  within (.continuable next names) body
  endContinuable
  label next

/-! ## Loops on a condition -/

def whileLoop (node : NodeId) (names : List String) (test : Label → Lower Unit)
    (body : Lower Unit) : Lower Unit := do
  let scope ← scopeOf node
  withScope scope do
    let slots ← loopSlots scope
    let start ← freshLabel
    let next ← freshLabel
    let exit ← freshLabel
    let done ← freshLabel
    beginBreakable done names true
    label start
    pushIteration scope slots
    test exit
    within (.breakable done names true) (inIteration scope slots (loopBody names next body))
    if slots.isSome then popEnvironment
    branch start
    label exit
    popIteration scope slots
    endBreakable
    label done

def doWhileLoop (node : NodeId) (names : List String) (body test : Lower Unit) :
    Lower Unit := do
  let scope ← scopeOf node
  withScope scope do
    let slots ← loopSlots scope
    let start ← freshLabel
    let next ← freshLabel
    let done ← freshLabel
    beginBreakable done names true
    label start
    pushIteration scope slots
    within (.breakable done names true) (inIteration scope slots (loopBody names next body))
    test
    popIteration scope slots
    jumpIfTrue start
    endBreakable
    label done

def forLoop (node : NodeId) (names : List String) (init : Lower Unit)
    (test : Label → Lower Unit) (update body : Lower Unit) : Lower Unit := do
  let scope ← scopeOf node
  withScope scope do
    let slots ← loopSlots scope
    let start ← freshLabel
    let next ← freshLabel
    let exit ← freshLabel
    let done ← freshLabel
    beginBreakable done names true
    pushIteration scope slots
    init
    label start
    test exit
    within (.breakable done names true) (inIteration scope slots (loopBody names next body))
    renewIteration scope slots
    update
    branch start
    label exit
    popIteration scope slots
    endBreakable
    label done

/-! ## Loops over a collection -/

def iterate (scope : ScopeId) (slots : Option (List String)) (names : List String) (next : Label)
    (bind body : Lower Unit) : Lower Unit := do
  pushIteration scope slots
  bind
  inIteration scope slots (loopBody names next body)
  popIteration scope slots

def forInLoop (scope : ScopeId) (names : List String) (bind : Register → Lower Unit)
    (body : Lower Unit) : Lower Unit := do
  let slots ← loopSlots scope
  let start ← freshLabel
  let next ← freshLabel
  let done ← freshLabel
  let iterator ← getTemp
  let key ← getTemp
  emit .getPropIterator
  sta iterator
  beginBreakable done names true
  label start
  emit (.getNextPropName iterator)
  sta key
  constant .undefined
  binary .strictEq key
  emit (.jnez done)
  within (.breakable done names true) (iterate scope slots names next (bind key) body)
  branch start
  endBreakable
  label done
  freeTemps [iterator, key]

def protectedIteration (onThrow start : Label) (iterator : Register)
    (iteration : Lower Unit) : Lower Unit := do
  let region ← beginTry onThrow
  withFinalizer region (.closing iterator)
    (← close (copyOf region (.closing iterator) true (emit (.closeIterator iterator)))) iteration
  endTry region
  branch start
  label onThrow
  rethrowAfter (copyOf region (.closing iterator) false (emit (.closeIterator iterator)))

/-- A loop over the values of the iterable in the accumulator. Every early way out closes the
iterator. -/
def forOfLoop (scope : ScopeId) (names : List String) (bind : Register → Lower Unit)
    (body : Lower Unit) : Lower Unit := do
  let slots ← loopSlots scope
  let start ← freshLabel
  let continuation ← freshLabel
  let onThrow ← freshLabel
  let done ← freshLabel
  let iterator ← getTemp
  let next ← getTemp
  let result ← getTemp
  let value ← getTemp
  startIteration iterator next
  beginBreakable done names true
  let boundary := Boundary.finalizer (← read).finalizers.length
  startBoundary boundary
  label start
  callNext iterator next result
  jumpIfTrue done
  loadProperty result (.name "value")
  sta value
  within (.breakable done names true) (protectedIteration onThrow start iterator
    (iterate scope slots names continuation (bind value) body))
  endBoundary boundary
  endBreakable
  label done
  freeTemps [iterator, next, result, value]

def collectionLoop (node : NodeId) (source : Lower Unit) (run : ScopeId → Lower Unit) :
    Lower Unit := do
  let scope ← scopeOf node
  source
  withScope scope (run scope)

end AccScript.Lower
