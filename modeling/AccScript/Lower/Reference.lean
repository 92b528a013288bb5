import AccScript.Lower.Variable

/-!
# Keys, references and functions

A property key is evaluated to an operand. A reference is an evaluated assignment target: it can
be loaded from and stored to, and is given back at the end.
-/

namespace AccScript

/-- Numbers that are array indices are indices, all others names. -/
def KeyOperand.ofNumber (value : Binary64) : KeyOperand :=
  match value.toInt? with
  | some (.ofNat n) => if n < 0xffffffff then .index n else .name value.propertyName
  | _ => .name value.propertyName

def KeyOperand.name? : KeyOperand → Option String
  | .name s => some s
  | .index n => some (toString n)
  | .value _ => none

/-- An evaluated assignment target. -/
inductive Target where
  | variable (name : String)
  | property (object : Register) (key : KeyOperand)
  | superProperty (receiver : Register) (key : KeyOperand)
deriving DecidableEq, Repr

namespace Lower

open Asm

/-! ## Keys -/

/-- Gives back the register of a key. -/
def freeKey : KeyOperand → Code
  | .value key => freeTemps [key]
  | _ => pure ()

def loadKey : KeyOperand → Code
  | .name name => loadString name
  | .index index => loadNat index
  | .value key => lda key

def keyRegister : KeyOperand → Asm Register
  | .value key => return key
  | key => do
      let register ← getTemp
      loadKey key
      sta register
      return register

def valueKey (code : Lower Unit) : Lower KeyOperand := do
  code
  return .value (← storeTemp)

/-! ## References -/

def loadSuper (receiver : Register) : KeyOperand → Code
  | .value key => do
      lda key
      emit (.ldSuperByValue receiver)
  | .name name => do
      let name ← intern name
      lda receiver
      emit (.ldSuperByName name)
  | .index index => do
      let name ← intern (toString index)
      lda receiver
      emit (.ldSuperByName name)

def storeSuper (receiver : Register) : KeyOperand → Code
  | .value key => emit (.stSuperByValue receiver key)
  | .name name => do emit (.stSuperByName (← intern name) receiver)
  | .index index => do emit (.stSuperByName (← intern (toString index)) receiver)

def propertyTarget (object : Lower Unit) (key : Lower KeyOperand) : Lower Target := do
  object
  let object ← storeTemp
  return .property object (← key)

/-- A property of the super object, with `this` as the receiver. -/
def superTarget (key : Lower KeyOperand) : Lower Target := do
  loadThis
  let receiver ← storeTemp
  return .superProperty receiver (← key)

def loadTarget : Target → Lower Unit
  | .variable name => loadVariable name
  | .property object key => loadProperty object key
  | .superProperty receiver key => loadSuper receiver key

/-- Stores the accumulator, which keeps its value. -/
def storeTarget : Target → Lower Unit
  | .variable name => storeVariable name false
  | .property object key => storeProperty object key
  | .superProperty receiver key => storeSuper receiver key

def freeTarget : Target → Code
  | .variable _ => pure ()
  | .property object key | .superProperty object key => do
      freeKey key
      freeTemps [object]

def valueOf (target : Lower Target) : Lower Unit := do
  let target ← target
  loadTarget target
  freeTarget target

/-! ## Functions -/

def defineFunction (f : FunctionNode) : Lower Unit := do
  let env ← read
  let facts ← env.survey.functionFacts f.id
  let name ← internalName f.id
  emitAt (.functions [f.id]) (.defineFunc (← intern name) facts.length)
  defer (.function f none (env.isStrict || f.isStrict))

def defineMethod (f : FunctionNode) (isStrict : Bool) : Lower Unit := do
  let env ← read
  let facts ← env.survey.functionFacts f.id
  let name ← internalName f.id
  emitAt (.functions [f.id]) (.defineMethod (← intern name) facts.length)
  defer (.function f none (isStrict || env.isStrict || f.isStrict))

def accessorHalf (object register : Register) (isStrict : Bool) :
    Option FunctionNode → Lower Unit
  | some f => do
      lda object
      defineMethod f isStrict
      sta register
  | none => do
      constant .undefined
      sta register

def defineAccessor (object key : Register) (getter setter : Option FunctionNode)
    (isStrict : Bool) : Lower Unit := do
  let getterRegister ← getTemp
  let setterRegister ← getTemp
  accessorHalf object getterRegister isStrict getter
  accessorHalf object setterRegister isStrict setter
  emit (.defineGetterSetterByValue object key getterRegister setterRegister)
  freeTemps [getterRegister, setterRegister]

/-- The kind of the other half of an accessor pair. -/
def partnerKind : FunctionKind → FunctionKind
  | .getter => .setter
  | _ => .getter

def defineAccessorPair (object : Register) (key : Lower KeyOperand) (f : FunctionNode)
    (partner : Option FunctionNode) (isStrict : Bool) : Lower Unit := do
  let key ← keyRegister (← key)
  if f.kind = .getter then defineAccessor object key (some f) partner isStrict
  else defineAccessor object key partner (some f) isStrict
  freeTemps [key]

def defineKeyedMethod (object : Register) (key : Lower KeyOperand) (f : FunctionNode)
    (isStrict : Bool) : Lower Unit := do
  let key ← key
  lda object
  defineMethod f isStrict
  storeOwnProperty object key
  freeKey key

end Lower

end AccScript
