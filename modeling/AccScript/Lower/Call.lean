import AccScript.Lower.Collection

/-!
# Calls

Arguments are evaluated into consecutive temporaries, or into an array if one of them is spread.
-/

namespace AccScript.Lower

open Asm

/-- An evaluated callee, with its receiver if it is a property. -/
structure Callee where
  function : Register
  receiver : Option Register
deriving DecidableEq, Repr

def propertyCallee (target : Lower Target) : Lower Callee := do
  let target ← target
  loadTarget target
  match target with
  | .property object key | .superProperty object key =>
      freeKey key
      return { function := ← storeTemp, receiver := some object }
  | .variable _ => return { function := ← storeTemp, receiver := none }

def plainCallee (code : Lower Unit) : Lower Callee := do
  code
  return { function := ← storeTemp, receiver := none }

def evaluateArguments : List (Lower Unit) → Lower (List Register)
  | [] => return []
  | code :: rest => do
      code
      let argument ← storeTemp
      return argument :: (← evaluateArguments rest)

def emitCall (callee : Callee) (arguments : List Register) : Code := do
  lda callee.function
  match callee.receiver with
  | some receiver => emit (.callThis receiver arguments)
  | none => emit (.callArgs arguments)
  freeTemps arguments.reverse
  freeTemps [callee.function]
  freeTemps callee.receiver.toList

def receiverOf (callee : Callee) : Asm Register :=
  match callee.receiver with
  | some receiver => return receiver
  | none => do
      let receiver ← getTemp
      constant .undefined
      sta receiver
      return receiver

def callSpread (callee : Callee) (items : List ArrayItem) : Lower Unit := do
  arrayOf items
  let arguments ← storeTemp
  let receiver ← receiverOf callee
  emit (.callSpread callee.function receiver arguments)
  freeTemps [callee.function, receiver, arguments]

def call (callee : Lower Callee) (items : List ArrayItem) : Lower Unit := do
  let callee ← callee
  match items.mapM ArrayItem.value? with
  | some codes => emitCall callee (← evaluateArguments codes)
  | none => callSpread callee items

def construct (position : Position) (callee : Lower Unit) (items : List ArrayItem) :
    Lower Unit := do
  match items.mapM ArrayItem.value? with
  | none => throw (.unsupported "spread arguments to new" position)
  | some codes =>
      callee
      let constructor ← storeTemp
      let arguments ← evaluateArguments codes
      emit (.newObjRange constructor arguments)
      freeTemps arguments.reverse
      freeTemps [constructor]

def textArray (texts : List String) : Code :=
  arrayOfLiterals (texts.map .string)

def templateObject (quasis rawQuasis : List String) : Code := do
  let raw ← getTemp
  textArray rawQuasis
  sta raw
  let cooked ← getTemp
  textArray quasis
  sta cooked
  let pair ← getTemp
  emit .createEmptyArray
  sta pair
  lda raw
  emit (.stOwnByIndex pair 0)
  lda cooked
  emit (.stOwnByIndex pair 1)
  lda pair
  emit .getTemplateObject
  freeTemps [raw, cooked, pair]

def taggedTemplate (tag : Lower Callee) (quasis rawQuasis : List String)
    (parts : List (Lower Unit)) : Lower Unit := do
  let callee ← tag
  templateObject quasis rawQuasis
  let object ← storeTemp
  let arguments ← evaluateArguments parts
  emitCall callee (object :: arguments)

/-! ## Calls of the super constructor -/

/-- Initializes `this` with what the super constructor returned, then the fields. -/
def bindSuperResult : Lower Unit := do
  let result ← storeTemp
  loadVariable HiddenName.this
  emit (.throwIfSuperNotCorrectCall 1)
  lda result
  declareVariable HiddenName.this
  let env ← read
  if env.callsOwnConstructor then env.fieldInit
  lda result
  freeTemps [result]

def superSpread (arguments : Register) : Lower Unit := do
  loadVariable HiddenName.funcObj
  emit (.superCallSpread arguments)

def superCall (items : List ArrayItem) : Lower Unit := do
  match items.mapM ArrayItem.value? with
  | some codes =>
      let arguments ← evaluateArguments codes
      loadVariable HiddenName.funcObj
      emit (.superCallThisRange arguments)
      freeTemps arguments
  | none =>
      arrayOf items
      let arguments ← storeTemp
      superSpread arguments
      freeTemps [arguments]
  bindSuperResult

end AccScript.Lower
