import AccScript.Assembler.Basic
import AccScript.Number.Radix

/-!
# Properties, operators, environments and globals

The short instruction sequences that larger pieces of code are made of.
-/

namespace AccScript.Asm

def loadBigInt (literal : String) : Code :=
  match Radix.readMarked? (Radix.literalDigits literal) with
  | some value => do emit (.ldBigInt (← intern (toString value)))
  | none => throw (.internal ("malformed BigInt literal '" ++ literal ++ "'"))

/-! ## Properties -/

def loadProperty (object : Register) : KeyOperand → Code
  | .name name => do
      let name ← intern name
      lda object
      emit (.ldObjByName name)
  | .index index => do
      lda object
      emit (.ldObjByIndex index)
  | .value key => do
      lda key
      emit (.ldObjByValue object)

def storeProperty (object : Register) : KeyOperand → Code
  | .name name => do emit (.stObjByName (← intern name) object)
  | .index index => emit (.stObjByIndex object index)
  | .value key => emit (.stObjByValue object key)

def storeOwnProperty (object : Register) : KeyOperand → Code
  | .name name => do emit (.stOwnByName (← intern name) object)
  | .index index => emit (.stOwnByIndex object index)
  | .value key => emit (.stOwnByValue object key)

/-! ## Operators and jumps -/

/-- Applies an operator to a register and the accumulator. -/
def binary (op : BinaryOp) (lhs : Register) : Code :=
  emit (.binary op lhs)

def unary (op : AccumulatorOp) : Code :=
  emit (.unary op)

/-- Compares a register with the accumulator and jumps if the comparison fails. -/
def condition (op : BinaryOp) (lhs : Register) (ifFalse : Label) : Code := do
  binary op lhs
  emit (.jeqz ifFalse)

def branch (target : Label) : Code :=
  emit (.jmp target)

def jumpIfFalse (target : Label) : Code := do
  unary .isTrue
  emit (.jeqz target)

def jumpIfTrue (target : Label) : Code := do
  unary .isFalse
  emit (.jeqz target)

def branchIfNullish (value : Register) (target : Label) : Code := do
  let compare ← getTemp
  constant .undefined
  sta compare
  lda value
  binary .eq compare
  emit (.jnez target)
  freeTemps [compare]

/-! ## Environments -/

def environmentInstruction (slotNames : List String) : Asm Instruction := do
  if (← get).debugMode && !slotNames.isEmpty then
    let scopeInfo ← addLiteral (LiteralBuffer.scopeInfo slotNames)
    return .newLexEnvWithName slotNames.length scopeInfo
  else
    return .newLexEnv slotNames.length

def newEnvironment (slotNames : List String) : Code := do
  emit (← environmentInstruction slotNames)

/-- Pops the innermost environment and leaves the accumulator alone. -/
def popEnvironment : Code :=
  emit .popLexEnv

def loadSlot (level slot : Nat) : Code :=
  emit (.ldLexVar level slot)

def storeSlot (level slot : Nat) : Code :=
  emit (.stLexVar level slot)

/-! ## Globals -/

def globalAccess (access : GlobalAccess) (name : String) : Code := do
  emit (.global access (← intern name))

def loadViaDebugger (name : String) (throws : Bool) : Code := do
  let getter ← getTemp
  constant .global
  sta getter
  loadProperty getter (.name "debuggerGetValue")
  sta getter
  let argument ← getTemp
  loadString name
  sta argument
  let flag ← getTemp
  constant (if throws then .true else .false)
  sta flag
  lda getter
  emit (.callArgs [argument, flag])
  freeTemps [getter, argument, flag]

/-- Hands the accumulator to the debugger as the value of a name; it stays in the accumulator. -/
def storeViaDebugger (name : String) : Code := do
  let value ← getTemp
  sta value
  let setter ← getTemp
  constant .global
  sta setter
  loadProperty setter (.name "debuggerSetValue")
  sta setter
  let argument ← getTemp
  loadString name
  sta argument
  lda setter
  emit (.callArgs [argument, value])
  lda value
  freeTemps [value, setter, argument]

def tryLoadGlobal (name : String) : Code := do
  if (← get).watchMode then loadViaDebugger name true
  else globalAccess .tryLoad name

def tryStoreGlobal (name : String) : Code := do
  if (← get).watchMode then storeViaDebugger name
  else globalAccess .tryStore name

/-! ## Guards -/

def throwIfHole (name : String) : Code := do
  emit (.throwUndefinedIfHole (← intern name))

def throwConstAssignment (name : String) : Code := do
  let register ← getTemp
  loadString name
  sta register
  emit (.throwConstAssignment register)
  freeTemps [register]

end AccScript.Asm
