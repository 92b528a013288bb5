import AccScript.Proofs.Scope.Growth

/-!
# Scope trees without types

The index of a variable's type is kept for others.  `ScopeTree.untyped` leaves it out; nothing that
is asked of a tree depends on it, and every step that builds a tree can be done without it.
-/

namespace AccScript

/-- A variable without its type. -/
def Variable.untyped (v : Variable) : Variable :=
  { v with typeIndex := 0 }

namespace ScopeTree

variable (s : ScopeId) (name : String) (commonjs : Bool) (v : VariableId)

/-- A tree whose variables have no types. -/
def untyped (t : ScopeTree) : ScopeTree :=
  { t with vars := t.vars.map Variable.untyped }

variable (t : ScopeTree)

/-! ## Questions -/

@[simp] theorem scope?_untyped : t.untyped.scope? s = t.scope? s := rfl

@[simp] theorem var?_untyped :
    t.untyped.var? v = (t.var? v).map Variable.untyped := by
  simp [var?, untyped]

@[simp] theorem kindIs_untyped (p : ScopeKind → Bool) (s : ScopeId) :
    t.untyped.kindIs p s = t.kindIs p s := rfl

@[simp] theorem variableScope?_untyped :
    t.untyped.variableScope? s = t.variableScope? s := rfl

@[simp] theorem findLocal?_untyped :
    t.untyped.findLocal? s name = t.findLocal? s name := rfl

@[simp] theorem ancestors_untyped : t.untyped.ancestors s = t.ancestors s := by
  have same : t.untyped.parent? = t.parent? := rfl
  rw [ancestors_congr same]

@[simp] theorem nearest_untyped (p : ScopeId → Bool) (s : ScopeId) :
    t.untyped.nearest p s = t.nearest p s := by
  rw [nearest, ancestors_untyped, nearest]

@[simp] theorem nearestVariableScope_untyped :
    t.untyped.nearestVariableScope s = t.nearestVariableScope s :=
  nearest_untyped t _ s

@[simp] theorem nearestLexicalScope_untyped :
    t.untyped.nearestLexicalScope s = t.nearestLexicalScope s :=
  nearest_untyped t _ s

@[simp] theorem nearestNonArrowScope_untyped :
    t.untyped.nearestNonArrowScope s = t.nearestNonArrowScope s :=
  nearest_untyped t _ s

theorem findIn?_untyped (crossed : Bool) (scopes : List ScopeId) :
    t.untyped.findIn? name crossed scopes = t.findIn? name crossed scopes := by
  induction scopes generalizing crossed with
  | nil => rfl
  | cons s rest ih =>
    rw [findIn?, findIn?, findLocal?_untyped, kindIs_untyped]
    cases t.findLocal? s name with
    | none => exact ih _
    | some v => rfl

@[simp] theorem find?_untyped :
    t.untyped.find? s name = t.find? s name := by
  rw [find?, ancestors_untyped, findIn?_untyped, find?]

@[simp] theorem isGlobalRecord_untyped :
    t.untyped.isGlobalRecord commonjs v = t.isGlobalRecord commonjs v := by
  rw [isGlobalRecord, var?_untyped, isGlobalRecord]
  cases t.var? v <;> rfl

@[simp] theorem isPromotable_untyped :
    t.untyped.isPromotable commonjs v = t.isPromotable commonjs v := by
  rw [isPromotable, var?_untyped, isGlobalRecord_untyped, isPromotable]
  cases t.var? v <;> rfl

@[simp] theorem slotOwner_untyped : t.untyped.slotOwner v = t.slotOwner v := by
  rw [slotOwner, var?_untyped, nearestLexicalScope_untyped, Option.map_map, slotOwner]
  rfl

@[simp] theorem slotNames_untyped : t.untyped.slotNames s = t.slotNames s := rfl

@[simp] theorem level_untyped :
    t.untyped.level s v = t.level s v := by
  rw [level, ancestors_untyped, slotOwner_untyped, level]
  rfl

@[simp] theorem resolve_untyped :
    t.untyped.resolve s name commonjs = t.resolve s name commonjs := by
  rw [resolve, find?_untyped, resolve]
  cases t.find? s name with
  | none => rfl
  | some found =>
    obtain ⟨v, crossed⟩ := found
    simp only [var?_untyped, isGlobalRecord_untyped, level_untyped]
    cases t.var? v <;> rfl

/-! ## Steps -/

/-- A change of variables that leaves types alone, or is about to forget them. -/
theorem untyped_modifyVariable {f g : Variable → Variable}
    (same : ∀ data, (f data).untyped = g data.untyped) :
    (t.modifyVariable v f).untyped = t.untyped.modifyVariable v g := by
  have vars : (t.vars.modify v f).map Variable.untyped = (t.vars.map Variable.untyped).modify v g := by
    apply Array.ext_getElem?
    intro i
    rw [Array.getElem?_map, Array.getElem?_modify, Array.getElem?_modify, Array.getElem?_map]
    split
    · rw [Option.map_map, Option.map_map]
      exact congrArg (fun h => t.vars[i]?.map h) (funext same)
    · rfl
  simp only [modifyVariable, untyped, vars]

theorem untyped_pushVariable (data : Variable) : t.untyped.pushVariable data.untyped =
      ((t.pushVariable data).1, (t.pushVariable data).2.untyped) := by
  simp [pushVariable, untyped]

theorem untyped_addHere (scopeKind : ScopeKind) (name : String) (kind : VarKind)
    (role : ModuleRole) :
    t.untyped.addHere s scopeKind name kind role =
      ((t.addHere s scopeKind name kind role).1, (t.addHere s scopeKind name kind role).2.untyped) := by
  rw [addHere, findLocal?_untyped, addHere]
  cases t.findLocal? s name with
  | some existing => rfl
  | none =>
    have pushed := untyped_pushVariable t
      { name, kind, storage := storageFor scopeKind kind role, scope := s
        startsInitialized := !kind.hasDeadZone }
    simp only [Variable.untyped] at pushed
    simp only [pushed]
    rfl

theorem untyped_add (kind : VarKind) (role : ModuleRole) :
    t.untyped.add s name kind role =
      ((t.add s name kind role).1, (t.add s name kind role).2.untyped) := by
  simp only [add, scope?_untyped, nearestVariableScope_untyped, untyped_addHere]
  repeat' split <;> try rfl

theorem untyped_addParameter (kind : VarKind)
    (isImplicit isVisible : Bool) :
    t.untyped.addParameter s name kind isImplicit isVisible =
      ((t.addParameter s name kind isImplicit isVisible).1,
        (t.addParameter s name kind isImplicit isVisible).2.untyped) := by
  have pushed := untyped_pushVariable t
    { name, kind, storage := .local, scope := s, startsInitialized := true, isImplicit
      isParameter := true }
  simp only [Variable.untyped] at pushed
  simp only [addParameter, pushed]
  cases isVisible <;> rfl

theorem untyped_promote :
    t.untyped.promote v = ((t.promote v).1, (t.promote v).2.untyped) := by
  rw [promote, var?_untyped, promote]
  cases found : t.var? v with
  | none => rfl
  | some data =>
    cases slot : data.slot with
    | some slot => simp [Variable.untyped, slot]
    | none =>
      simp only [Option.map_some, Variable.untyped, slot, slotOwner_untyped, slotNames_untyped]
      refine Prod.ext rfl (Eq.symm ?_)
      apply untyped_modifyVariable
      exact fun _ => rfl

theorem untyped_resolveReference (reference : Reference) :
    resolveReference commonjs t.untyped reference =
      (resolveReference commonjs t reference).untyped := by
  rw [resolveReference, find?_untyped, resolveReference]
  cases t.find? reference.scope reference.name with
  | some found =>
    obtain ⟨v, crossed⟩ := found
    simp only [isPromotable_untyped, untyped_promote]
    split <;> rfl
  | none =>
    simp only [untyped_add]
    split <;> rfl

theorem untyped_resolveReferences (references : List Reference) :
    t.untyped.resolveReferences commonjs references =
      (t.resolveReferences commonjs references).untyped := by
  unfold resolveReferences
  induction references generalizing t with
  | nil => rfl
  | cons reference rest ih =>
    rw [List.foldl_cons, List.foldl_cons, untyped_resolveReference, ih]

end ScopeTree

end AccScript
