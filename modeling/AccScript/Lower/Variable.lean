import AccScript.Lower.Env

/-!
# Access to variables

Loads and stores by resolution. A declaring store initializes its variable; any other store is
guarded: a variable that may still hold the hole is checked first, and an immutable one throws.
-/

namespace AccScript.Lower

open Asm

def resolveName (name : String) : Lower Resolution := do
  let env ← read
  env.tree.resolve env.scope name env.options.commonjs

/-- How a variable of this unit is reached. -/
def localResolution (v : VariableId) : Lower Resolution := do
  let env ← read
  match (← variableData v).slot with
  | some slot => return .lexical v (env.tree.level env.scope v) slot
  | none => return .register v

/-- Whether a variable may hold the hole at this point of the unit. -/
def mayBeUninitialized (v : VariableId) : Lower Bool := do
  return !(← variableData v).startsInitialized && !(← get).isInitialized v

/-- Whether a variable can hold the hole at all. -/
def hasDeadZone (v : VariableId) : Lower Bool := do
  let data ← variableData v
  return data.kind.hasDeadZone && !data.startsInitialized

def isOwnClassName (env : Env) (v : VariableId) (data : Variable) : Bool :=
  data.kind = .cls &&
    (env.tree.ancestors env.scope).any fun s =>
      env.survey.classBindings.get? s = some data.name &&
        (env.tree.find? s data.name).map Prod.fst = some v

/-- Constants are immutable, and so is the name of a class inside of the class. -/
def isImmutable (v : VariableId) : Lower Bool := do
  let data ← variableData v
  let isConst := data.kind = .const && !data.isParameter && data.name ≠ HiddenName.arguments
  return isConst || isOwnClassName (← read) v data

def moduleSlot (v : VariableId) : Lower (Nat × Bool) := do
  match (← variableData v).storage with
  | .module index isExternal => return (index, isExternal)
  | _ => throw .unmet

/-! ## Loads -/

def loadSlotOf (v : VariableId) (level slot : Nat) : Lower Unit :=
  emitAt (.variable v) (.ldLexVar level slot)

def loadUnbound (name : String) : Code :=
  match name with
  | "NaN" => constant .nan
  | "Infinity" => constant .infinity
  | "globalThis" => constant .global
  | "undefined" => constant .undefined
  | _ => tryLoadGlobal name

def loadResolved (name : String) : Resolution → Lower Unit
  | .unresolved => loadUnbound name
  | .global v => do
      match (← variableData v).kind with
      | .var | .function => globalAccess .loadVar name
      | _ => tryLoadGlobal name
  | .globalRecord _ => tryLoadGlobal name
  | .module v => do
      let (index, isExternal) ← moduleSlot v
      if isExternal then emit (.ldExternalModuleVar index)
      else
        emit (.ldLocalModuleVar index)
        if ← mayBeUninitialized v then throwIfHole name
  | .register v => do
      if ← mayBeUninitialized v then
        constant .hole
        throwIfHole name
      else lda (← registerFor v)
  | .lexical v level slot => do
      loadSlotOf v level slot
      if ← hasDeadZone v then throwIfHole name

def loadVariable (name : String) : Lower Unit := do
  loadResolved name (← resolveName name)

def loadLocal (v : VariableId) : Lower Unit := do
  loadResolved (← variableData v).name (← localResolution v)

/-! ## Stores -/

def storeSlotOf (v : VariableId) (level slot : Nat) : Lower Unit :=
  emitAt (.variable v) (.stLexVar level slot)

def storeByName (name : String) : Lower Unit := do
  if (← read).isStrict then tryStoreGlobal name else globalAccess .storeVar name

/-- Checks the present value of a variable, keeping the accumulator. -/
def checkHole (name : String) (load : Lower Unit) : Lower Unit := do
  let value ← storeTemp
  load
  throwIfHole name
  lda value
  freeTemps [value]

def guardedStore (name : String) (v : VariableId) (needsCheck : Bool)
    (load store : Lower Unit) : Lower Unit := do
  if needsCheck then checkHole name load
  if ← isImmutable v then throwConstAssignment name else store

def recordAccess : VarKind → GlobalAccess
  | .const => .storeConst
  | .cls => .storeClass
  | _ => .storeLet

def storeResolved (name : String) (isDeclaration : Bool) : Resolution → Lower Unit
  | .unresolved => storeByName name
  | .global v => do
      match (← variableData v).kind with
      | .var | .function => globalAccess .storeVar name
      | _ => storeByName name
  | .globalRecord v => do
      if isDeclaration then globalAccess (recordAccess (← variableData v).kind) name
      else if ← isImmutable v then throwConstAssignment name
      else tryStoreGlobal name
  | .module v => do
      let (index, isExternal) ← moduleSlot v
      if isExternal then throwConstAssignment name
      else if isDeclaration then
        emit (.stModuleVar index)
        markInitialized v
      else
        guardedStore name v (← mayBeUninitialized v) (emit (.ldLocalModuleVar index))
          (emit (.stModuleVar index))
  | .register v => do
      if isDeclaration then
        sta (← registerFor v)
        markInitialized v
      else
        guardedStore name v (← mayBeUninitialized v) (constant .hole)
          (do sta (← registerFor v))
  | .lexical v level slot => do
      if isDeclaration then storeSlotOf v level slot
      else guardedStore name v (← hasDeadZone v) (loadSlotOf v level slot) (storeSlotOf v level slot)

def storeVariable (name : String) (isDeclaration : Bool) : Lower Unit := do
  storeResolved name isDeclaration (← resolveName name)

def declareVariable (name : String) : Lower Unit :=
  storeVariable name true

def declareLocal (v : VariableId) : Lower Unit := do
  storeResolved (← variableData v).name true (← localResolution v)

/-! ## Questions about names -/

/-- Whether reading a name must not throw: no declaration binds it. -/
def isUnscoped (name : String) : Lower Bool := do
  match ← resolveName name with
  | .unresolved => return true
  | .global v => return (← variableData v).kind = .undeclared
  | _ => return false

def isGlobalName (name : String) : Lower Bool := do
  match ← resolveName name with
  | .unresolved | .global _ => return true
  | _ => return false

/-! ## `this` -/

/-- Throws unless `this` is initialized. -/
def requireThis : Code :=
  emit (.throwIfSuperNotCorrectCall 0)

/-- Loads `this`; a derived constructor checks that it is initialized. -/
def loadThis : Lower Unit := do
  if (← get).watchMode then loadViaDebugger "this" true
  else
    loadVariable HiddenName.this
    if (← read).inDerivedConstructor then requireThis

end AccScript.Lower
