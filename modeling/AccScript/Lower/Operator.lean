import AccScript.Lower.Reference

/-!
# Operators, conditions and assignments

The code of operators from the code of their operands.
-/

namespace AccScript.Lower

open Asm

/-! ## Operators -/

def binaryOperation (op : BinaryOp) (lhs rhs : Lower Unit) : Lower Unit := do
  lhs
  let left ← storeTemp
  rhs
  binary op left
  freeTemps [left]

/-- The negation of a truth value. -/
def negation (operand : Lower Unit) : Lower Unit := do
  let isFalse ← freshLabel
  let done ← freshLabel
  operand
  jumpIfFalse isFalse
  constant .false
  branch done
  label isFalse
  constant .true
  label done

/-- The type of a value; the name of a variable that nothing binds must not throw. -/
def typeOperation (name : Option String) (operand : Lower Unit) : Lower Unit := do
  match name with
  | some name =>
      if ← isUnscoped name then
        if (← get).watchMode then loadViaDebugger name false
        else
          constant .global
          emit (.ldObjByName (← intern name))
      else operand
  | none => operand
  unary .typeOf

def unaryOperation (op : UnaryOp) (name : Option String) (operand deletion : Lower Unit) :
    Lower Unit := do
  match op with
  | .typeOf => typeOperation name operand
  | .not => negation operand
  | .void =>
      operand
      constant .undefined
  | .minus =>
      operand
      unary .neg
  | .plus =>
      operand
      unary .toNumber
  | .bitNot =>
      operand
      unary .not
  | .delete => deletion

/-- Deletes a name, which succeeds only for a property of the global object. -/
def deleteName (name : String) : Lower Unit := do
  if ← isGlobalName name then
    let global ← getTemp
    constant .global
    sta global
    loadString name
    emit (.delObjProp global)
    freeTemps [global]
  else constant .false

def deleteProperty (object : Lower Unit) (key : Lower KeyOperand) : Lower Unit := do
  object
  let object ← storeTemp
  let key ← key
  loadKey key
  emit (.delObjProp object)
  freeKey key
  freeTemps [object]

def deleteValue (operand : Lower Unit) : Lower Unit := do
  operand
  constant .true

def nullishOperation (lhs rhs : Lower Unit) (done : Label) : Lower Unit := do
  lhs
  let left ← storeTemp
  let useRight ← freshLabel
  branchIfNullish left useRight
  lda left
  branch done
  label useRight
  freeTemps [left]
  rhs
  label done

/-- The left operand if a jump on its truth value is taken, the right one otherwise. -/
def shortCircuit (jump : Label → Code) (lhs rhs : Lower Unit) (keepLeft done : Label) :
    Lower Unit := do
  lhs
  let left ← storeTemp
  jump keepLeft
  rhs
  branch done
  label keepLeft
  lda left
  label done
  freeTemps [left]

def logicalOperation (op : LogicalOp) (lhs rhs : Lower Unit) : Lower Unit := do
  let keepLeft ← freshLabel
  let done ← freshLabel
  match op with
  | .and => shortCircuit jumpIfFalse lhs rhs keepLeft done
  | .or => shortCircuit jumpIfTrue lhs rhs keepLeft done
  | .nullish => nullishOperation lhs rhs done

def conditional (test : Label → Lower Unit) (consequent alternate : Lower Unit) :
    Lower Unit := do
  let otherwise ← freshLabel
  let done ← freshLabel
  test otherwise
  consequent
  branch done
  label otherwise
  alternate
  label done

/-! ## Conditions -/

/-- Jumps unless a comparison holds. -/
def comparison (op : BinaryOp) (lhs rhs : Lower Unit) (ifFalse : Label) : Lower Unit := do
  lhs
  let left ← storeTemp
  rhs
  condition op left ifFalse
  freeTemps [left]

/-- Jumps unless one of two conditions holds. -/
def disjunction (lhs rhs : Label → Lower Unit) (ifFalse : Label) : Lower Unit := do
  let next ← freshLabel
  let taken ← freshLabel
  lhs next
  branch taken
  label next
  rhs ifFalse
  label taken

def jumpUnless (value : Lower Unit) (ifFalse : Label) : Lower Unit := do
  value
  jumpIfFalse ifFalse

/-! ## Assignments -/

def assign (target : Lower Target) (value : Lower Unit) : Lower Unit := do
  let target ← target
  value
  storeTarget target
  freeTarget target

def compoundAssign (op : BinaryOp) (target : Lower Target) (value : Lower Unit) :
    Lower Unit := do
  let target ← target
  loadTarget target
  let current ← storeTemp
  value
  binary op current
  freeTemps [current]
  storeTarget target
  freeTarget target

/-- Steps a target; the value is the old number, or the new one for a leading operator. -/
def updateOperation (op : UpdateOp) (isPrefix : Bool) (target : Lower Target) :
    Lower Unit := do
  let target ← target
  let step : Code := match op with
    | .increment => unary .inc
    | .decrement => unary .dec
  loadTarget target
  unary .toNumeric
  if isPrefix then
    step
    storeTarget target
  else
    let old ← storeTemp
    step
    storeTarget target
    lda old
    freeTemps [old]
  freeTarget target

def storeRegister (target : Lower Target) (value : Register) : Lower Unit := do
  let target ← target
  lda value
  storeTarget target
  freeTarget target

end AccScript.Lower
