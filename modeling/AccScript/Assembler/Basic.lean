import AccScript.Code.Compiled
import AccScript.Options
import AccScript.Source.Tree

/-!
# The assembler

The state in which the instructions of one compilation unit are put together: the code so far,
the registers, the boundaries that a jump may have to leave, and the protected ranges. Strings,
literals and labels belong to the whole program and are handed on from unit to unit.
-/

namespace AccScript

/-- A statement that `break` or `continue` can reach. -/
structure JumpTarget where
  label : Label
  /-- The labels of the statement in the source. -/
  names : List String
  /-- Labelled blocks are reached by one of their labels only. -/
  acceptsUnlabelled : Bool
  /-- The number of boundaries around the statement. -/
  depth : Nat
deriving DecidableEq, Repr

/-- A catch table in the making; `opened` is the begin of a range without an end. -/
structure TryRegion where
  handler : Label
  ranges : List (Label × Label) := []
  opened : Option Label := none
  /-- The boundaries around the region. -/
  around : List Boundary := []
deriving DecidableEq, Repr

/-- A stretch of code that is a copy of the finalizer of a protected range. -/
structure FinalizerCopy where
  region : Nat
  kind : FinalizerKind
  /-- The scope that its names are resolved from. -/
  scope : ScopeId
  /-- The place of its first instruction. -/
  start : Nat
  /-- The place behind its last instruction. -/
  stop : Nat
deriving DecidableEq, Repr

/-- What statements change for their parts: the boundaries and targets of jumps, the scope of names,
the scopes of the variable table and the protected ranges that are open. -/
structure ControlState where
  scope : ScopeId
  boundaries : List Boundary
  breakables : List JumpTarget
  continuables : List JumpTarget
  openScopes : List (ScopeId × Nat)
  /-- The regions that have an open range, in order. -/
  openRegions : List Nat
deriving DecidableEq, Repr

/-- The states of control before and after the code of a statement. -/
structure Visit where
  before : ControlState
  after : ControlState
deriving DecidableEq, Repr

/-- A unit that waits for its code. -/
inductive UnitSource where
  | program
  /-- A function, with the class whose constructor it is. -/
  | function (function : FunctionNode) (owner : Option ClassNode) (isStrict : Bool)
  /-- The constructor of a class that declares none. -/
  | defaultConstructor (owner : ClassNode) (id : NodeId)

/-- The registers of a unit at one moment. -/
structure RegisterState where
  /-- The first register that was never given out. -/
  next : Nat
  /-- The registers of parameters and variables. -/
  locals : OrderedMap VariableId Register
  /-- The temporaries that have been taken and not given back. -/
  live : List Register
  /-- The temporaries that can be taken again. -/
  free : List Register
deriving DecidableEq, Repr

structure Assembler where
  debugMode : Bool := false
  watchMode : Bool := false
  strings : List String := []
  literals : Array LiteralBuffer := #[]
  nextLabel : Nat := 0
  /-- The strings that this unit has asked for, with the places it was told; the latest first. -/
  interned : List (String × StringId) := []
  code : Array Emitted := #[]
  /-- The origin of the instructions that follow. -/
  origin : Origin := .functionStart
  nextRegister : Nat := 0
  freeTemps : List Register := []
  liveTemps : Nat := 0
  /-- The temporaries that are counted by `liveTemps`, the last one first. -/
  live : List Register := []
  locals : OrderedMap VariableId Register := []
  initialized : List VariableId := []
  /-- The registers after each change so far, the latest first. -/
  moments : List RegisterState := []
  /-- Boundaries, breakable and continuable statements and open scopes: the innermost first. -/
  boundaries : List Boundary := []
  breakables : List JumpTarget := []
  continuables : List JumpTarget := []
  openScopes : List (ScopeId × Nat) := []
  regions : Array TryRegion := #[]
  scopeRanges : Array ScopeRange := #[]
  copies : Array FinalizerCopy := #[]
  /-- The statements that have been lowered so far. -/
  visits : Array Visit := #[]
  /-- Units that this one defines, in order. -/
  units : Array UnitSource := #[]

/-- The finished code of a unit. -/
structure AssembledUnit where
  code : List Emitted
  catchTables : List CatchTable
  registerCount : Nat
  locals : OrderedMap VariableId Register
  initialized : List VariableId
  scopeRanges : List ScopeRange

abbrev Asm := StateT Assembler (Except Failure)

abbrev Code := Asm Unit

/-- The key of a property access. -/
inductive KeyOperand where
  | name (name : String)
  | index (index : Nat)
  /-- A key in a register. -/
  | value (register : Register)
deriving DecidableEq, Repr

namespace Assembler

def ofOptions (options : Options) : Assembler :=
  { debugMode := options.debugMode, watchMode := options.watchMode }

def nextUnit (a : Assembler) : Assembler :=
  { debugMode := a.debugMode, watchMode := a.watchMode
    strings := a.strings, literals := a.literals, nextLabel := a.nextLabel }

/-- Whether the last instruction never goes on to the next. -/
def isTerminated (a : Assembler) : Bool :=
  match a.code.back? with
  | some e => e.instruction.isTerminator
  | none => false

def registers (a : Assembler) : RegisterState where
  next := a.nextRegister
  locals := a.locals
  live := a.live
  free := a.freeTemps

/-- What is kept about an instruction that is emitted now. -/
def placement (a : Assembler) (site : Option Site) : Placement :=
  { site, boundaries := a.boundaries }

def isOpen (a : Assembler) (index : Nat) : Bool :=
  a.regions[index]?.any fun region => region.opened.isSome

def control (a : Assembler) (scope : ScopeId) : ControlState where
  scope
  boundaries := a.boundaries
  breakables := a.breakables
  continuables := a.continuables
  openScopes := a.openScopes
  openRegions := (List.range a.regions.size).filter a.isOpen

def isInitialized (a : Assembler) (v : VariableId) : Bool :=
  v ∈ a.initialized

/-- The innermost statement that accepts a jump, among those within the current boundaries. -/
def findTarget? (a : Assembler) (targets : List JumpTarget) (name : Option String) :
    Option JumpTarget :=
  targets.find? fun target =>
    target.depth < a.boundaries.length &&
      match name with
      | some name => target.names.contains name
      | none => target.acceptsUnlabelled

def findBreakable? (a : Assembler) (name : Option String) : Option JumpTarget :=
  a.findTarget? a.breakables name

def findContinuable? (a : Assembler) (name : Option String) : Option JumpTarget :=
  a.findTarget? a.continuables name

def catchTable? (region : TryRegion) : Option CatchTable :=
  if region.ranges.isEmpty then none else some ⟨region.handler, region.ranges⟩

/-- The finished unit; every temporary must have been given back. -/
def finish (a : Assembler) : Except Failure AssembledUnit :=
  if a.liveTemps ≠ 0 then
    .error (.internal (toString a.liveTemps ++ " temporary register(s) leaked"))
  else .ok
    { code := a.code.toList
      catchTables := a.regions.toList.filterMap catchTable?
      registerCount := a.nextRegister
      locals := a.locals
      initialized := a.initialized
      scopeRanges := a.scopeRanges.toList }

end Assembler

namespace Asm

/-! ## Strings, literals and labels -/

def intern (s : String) : Asm StringId :=
  modifyGet fun a =>
    let strings := insertNew a.strings s
    let id : StringId := ⟨strings.idxOf s⟩
    (id, { a with strings, interned := (s, id) :: a.interned })

def addLiteral (buffer : LiteralBuffer) : Asm Nat :=
  modifyGet fun a => (a.literals.size, { a with literals := a.literals.push buffer })

def freshLabel : Asm Label :=
  modifyGet fun a => (⟨a.nextLabel⟩, { a with nextLabel := a.nextLabel + 1 })

/-! ## Emission -/

def setOrigin (origin : Origin) : Code :=
  modify fun a => { a with origin }

/-- Attributes what follows to a place in the source. -/
def atPosition (position : Position) : Code :=
  setOrigin (.source position)

def emit (instruction : Instruction) : Code :=
  modify fun a => { a with
    code := a.code.push { instruction, origin := a.origin, placement := a.placement none } }

def emitSited (site : List Boundary → Site) (instruction : Instruction) : Code :=
  modify fun a => { a with
    code := a.code.push
      { instruction, origin := a.origin, placement := a.placement (some (site a.boundaries)) } }

def label (l : Label) : Code :=
  emit (.label l)

def isTerminated : Asm Bool := do
  return (← get).isTerminated

/-! ## Registers -/

def allocateRegister : Asm Register :=
  modifyGet fun a => (⟨a.nextRegister⟩, { a with nextRegister := a.nextRegister + 1 })

def markInitialized (v : VariableId) : Code :=
  modify fun a => { a with initialized := insertNew a.initialized v }

def setLocal (v : VariableId) (r : Register) : Code :=
  modify fun a => { a with locals := a.locals.insert v r }

/-- Adds the present state of the registers to their history. -/
def recordRegisters : Code :=
  modify fun a => { a with moments := a.registers :: a.moments }

def bindParameter (v : VariableId) : Asm Register := do
  let r ← allocateRegister
  setLocal v r
  markInitialized v
  recordRegisters
  return r

def registerFor (v : VariableId) : Asm Register := do
  match (← get).locals.get? v with
  | some r => return r
  | none =>
      let r ← allocateRegister
      setLocal v r
      recordRegisters
      return r

def unusedRegister : Asm Register := do
  let a ← get
  match a.freeTemps with
  | r :: rest =>
      set { a with freeTemps := rest }
      return r
  | [] => allocateRegister

def holdTemp (r : Register) : Code :=
  modify fun a => { a with liveTemps := a.liveTemps + 1, live := r :: a.live }

/-- A register for a value in passing, to be given back by `freeTemps`. -/
def getTemp : Asm Register := do
  let r ← unusedRegister
  holdTemp r
  recordRegisters
  return r

/-- Gives temporaries back; the first of them is the next to be taken again. -/
def freeTemps (temps : List Register) : Code := do
  let a ← get
  if a.liveTemps < temps.length then throw (@Failure.broken .temporaries)
  else
    set { a with
      freeTemps := temps ++ a.freeTemps
      liveTemps := a.liveTemps - temps.length
      live := temps.foldl List.erase a.live }
    recordRegisters

/-! ## Moves and constants -/

def lda (src : Register) : Code :=
  emit (.lda src)

def sta (dst : Register) : Code :=
  emit (.sta dst)

/-- A new temporary that holds the accumulator. -/
def storeTemp : Asm Register := do
  let r ← getTemp
  sta r
  return r

def constant (value : Constant) : Code :=
  emit (.ldConst value)

def loadString (s : String) : Code := do
  emit (.ldaStr (← intern s))

def loadNumber (value : Binary64) : Code :=
  match value.toInt32? with
  | some n => emit (.ldai n)
  | none => emit (.fldai value)

def loadNat (n : Nat) : Code :=
  loadNumber (.ofNat n)

end Asm

end AccScript
