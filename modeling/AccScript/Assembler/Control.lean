import AccScript.Assembler.Access

/-!
# Boundaries and protected ranges

Statements that jumps can leave push boundaries; a protected range is open between a begin and an
end label and can be interrupted.
-/

namespace AccScript.Asm

def startBoundary (boundary : Boundary) : Code :=
  modify fun a => { a with boundaries := boundary :: a.boundaries }

/-- Leaves the innermost boundary, which must be the given one. -/
def endBoundary (boundary : Boundary) : Code := do
  let a ← get
  match a.boundaries with
  | top :: rest =>
      if top = boundary then set { a with boundaries := rest }
      else throw (@Failure.broken .boundary)
  | [] => throw (@Failure.broken .boundary)

/-! ## Break and continue -/

def beginBreakable (target : Label) (names : List String) (acceptsUnlabelled : Bool) : Code := do
  modify fun a => { a with
    breakables := ⟨target, names, acceptsUnlabelled, a.boundaries.length⟩ :: a.breakables }
  startBoundary .breakTarget

def endBreakable : Code := do
  endBoundary .breakTarget
  modify fun a => { a with breakables := a.breakables.tail }

def beginContinuable (target : Label) (names : List String) : Code := do
  modify fun a => { a with
    continuables := ⟨target, names, true, a.boundaries.length⟩ :: a.continuables }
  startBoundary .continueTarget

def endContinuable : Code := do
  endBoundary .continueTarget
  modify fun a => { a with continuables := a.continuables.tail }

/-! ## Protected ranges -/

/-- Opens a range that is protected by the code at `handler`. -/
def beginTry (handler : Label) : Asm Nat := do
  let start ← freshLabel
  label start
  let index := (← get).regions.size
  modify fun a => { a with
    regions := a.regions.push { handler, opened := some start, around := a.boundaries } }
  startBoundary (.region index)
  return index

/-- Ends the range of a region, if one is open. -/
def closeTry (index : Nat) : Code := do
  match (← get).regions[index]? with
  | none => throw .unmet
  | some region =>
      match region.opened with
      | none => pure ()
      | some start =>
          let stop ← freshLabel
          label stop
          modify fun a => { a with
            regions := a.regions.modify index fun region =>
              { region with ranges := region.ranges ++ [(start, stop)], opened := none } }

/-- Opens a range of a region again, if none is open. -/
def resumeTry (index : Nat) : Code := do
  match (← get).regions[index]? with
  | none => throw .unmet
  | some region =>
      match region.opened with
      | some _ => pure ()
      | none =>
          let start ← freshLabel
          label start
          modify fun a => { a with
            regions := a.regions.modify index fun region =>
              { region with opened := some start } }

def endTry (index : Nat) : Code := do
  endBoundary (.region index)
  closeTry index

def noteCopy (region : Nat) (kind : FinalizerKind) (scope : ScopeId) (start : Nat) : Code :=
  modify fun a => { a with copies := a.copies.push ⟨region, kind, scope, start, a.code.size⟩ }

/-! ## Scopes for the variable table -/

def enterScope (scope : ScopeId) : Code :=
  modify fun a =>
    if a.debugMode then { a with openScopes := (scope, a.code.size) :: a.openScopes } else a

def exitScope : Code :=
  modify fun a =>
    if a.debugMode then
      match a.openScopes with
      | (scope, start) :: rest =>
          { a with
            openScopes := rest, scopeRanges := a.scopeRanges.push ⟨scope, start, a.code.size⟩ }
      | [] => a
    else a

/-! ## Statements -/

def noteVisit (before : ControlState) (scope : ScopeId) : Code :=
  modify fun a => { a with visits := a.visits.push ⟨before, a.control scope⟩ }

/-! ## Units -/

/-- Leaves a unit to be compiled later. -/
def defer (unit : UnitSource) : Code :=
  modify fun a => { a with units := a.units.push unit }

end AccScript.Asm
