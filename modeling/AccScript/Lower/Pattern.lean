import AccScript.Lower.Reference

/-!
# Destructuring

The code that takes a value apart. Array patterns step an iterator, which is closed unless it is
exhausted; object patterns load one property after another, and a rest element takes a copy
without the properties named before.
-/

namespace AccScript

/-- How the names of a pattern are written. -/
inductive BindingMode where
  /-- Initializes declared names. -/
  | declare
  /-- Assigns to names, behind the guards of an assignment. -/
  | assign
deriving DecidableEq, Repr

/-- An element of a pattern, ready to be emitted. -/
structure PatternPart where
  /-- The key of the property that an object pattern loads. -/
  key : Lower KeyOperand
  /-- Stores the accumulator; without a target the element is skipped over. -/
  target : Option (Lower Unit)
  default : Option (Lower Unit)
  isRest : Bool

namespace Lower

open Asm

/-- Stores the accumulator under a name. -/
def bindName (name : String) (mode : BindingMode) : Lower Unit :=
  storeVariable name (mode = .declare)

/-- The key of an element of an object pattern that names none: the name it binds. -/
def impliedKey : Option BindingTarget → Lower KeyOperand
  | some (.identifier identifier) => return .name identifier.name
  | some (.pattern p) => throw (.unsupported "object pattern element without a key" p.position)
  | none => throw .unmet

def onTemp (code : Register → Lower Unit) : Lower Unit := do
  let value ← storeTemp
  code value
  freeTemps [value]

/-- Whether a register is undefined, as a truth value. -/
def isUndefined (load : Lower Unit) : Lower Unit := do
  let undefined ← getTemp
  constant .undefined
  sta undefined
  load
  binary .strictEq undefined
  freeTemps [undefined]

def loadWithDefault (value : Register) : Option (Lower Unit) → Lower Unit
  | none => lda value
  | some default => do
      let hasValue ← freshLabel
      let done ← freshLabel
      isUndefined (lda value)
      emit (.jeqz hasValue)
      default
      branch done
      label hasValue
      lda value
      label done

/-! ## Array patterns -/

/-- The registers of an iteration. -/
structure Iteration where
  iterator : Register
  next : Register
  done : Register
  result : Register
deriving DecidableEq, Repr

def callNext (iterator next result : Register) : Code := do
  lda next
  emit (.callThis iterator [])
  sta result
  emit (.throwIfNotObject result)
  loadProperty result (.name "done")

/-- Takes a step and leaves the new flag in the accumulator. -/
def Iteration.advance (i : Iteration) : Code := do
  callNext i.iterator i.next i.result
  unary .isTrue
  sta i.done

/-- Leaves the next value in `element`, or `undefined` once the iterator is done. -/
def Iteration.step (i : Iteration) (element : Register) : Code := do
  let stop ← freshLabel
  constant .undefined
  sta element
  lda i.done
  emit (.jnez stop)
  i.advance
  emit (.jnez stop)
  loadProperty i.result (.name "value")
  sta element
  label stop

/-- Leaves an array of all remaining values in `element`. -/
def Iteration.drain (i : Iteration) (element : Register) : Code := do
  let index ← getTemp
  let start ← freshLabel
  let stop ← freshLabel
  emit .createEmptyArray
  sta element
  loadNat 0
  sta index
  label start
  lda i.done
  emit (.jnez stop)
  i.advance
  emit (.jnez stop)
  loadProperty i.result (.name "value")
  emit (.stOwnByValue element index)
  lda index
  unary .inc
  sta index
  branch start
  label stop
  freeTemps [index]

def startIteration (iterator next : Register) : Code := do
  emit .getIterator
  sta iterator
  loadProperty iterator (.name "next")
  sta next

def bindElement (i : Iteration) (element : Register) (part : PatternPart) : Lower Unit := do
  if part.isRest then i.drain element else i.step element
  match part.target with
  | some target =>
      loadWithDefault element part.default
      target
  | none => pure ()

def arrayPattern (value : Register) (parts : List PatternPart) : Lower Unit := do
  let iterator ← getTemp
  let next ← getTemp
  let done ← getTemp
  let result ← getTemp
  lda value
  startIteration iterator next
  constant .false
  sta done
  let element ← getTemp
  sequence (parts.map (bindElement ⟨iterator, next, done, result⟩ element))
  let closed ← freshLabel
  lda done
  emit (.jnez closed)
  emit (.closeIterator iterator)
  label closed
  freeTemps [iterator, next, done, result, element]

/-! ## Object patterns -/

def deleteNames (object : Register) : List String → Code
  | [] => pure ()
  | name :: rest => do
      loadString name
      emit (.delObjProp object)
      deleteNames object rest

/-- Binds a copy of a value without the given properties. -/
def bindRest (value : Register) (seen : List String) (target : Lower Unit) : Lower Unit := do
  let rest ← getTemp
  emit .createEmptyObject
  sta rest
  lda value
  emit (.copyDataProperties rest)
  deleteNames rest seen
  lda rest
  target
  freeTemps [rest]

def bindProperty (value : Register) (key : KeyOperand) (default : Option (Lower Unit))
    (target : Lower Unit) : Lower Unit := do
  loadProperty value key
  freeKey key
  if default.isSome then onTemp fun property => loadWithDefault property default
  target

/-- Binds elements in order; `seen` are the names of the keys so far. -/
def bindProperties (value : Register) (seen : List String) : List PatternPart → Lower Unit
  | [] => pure ()
  | part :: parts => do
      match part.target with
      | none => bindProperties value seen parts
      | some target =>
          if part.isRest then
            bindRest value seen target
            bindProperties value seen parts
          else
            let key ← part.key
            bindProperty value key part.default target
            bindProperties value (seen ++ key.name?.toList) parts

def bindPattern (shape : PatternShape) (value : Register) (parts : List PatternPart) :
    Lower Unit :=
  match shape with
  | .array => arrayPattern value parts
  | .object => bindProperties value [] parts

end Lower

end AccScript
