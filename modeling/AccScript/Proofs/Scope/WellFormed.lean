import AccScript.Proofs.Scope.Ancestry

/-!
# Well-formed scope trees

What a finished scope tree promises: parents stand before their children, a walk toward the root
ends in a lexical scope, a name stands for a variable of the scope that has the name, and slots and
captured variables correspond.  From these facts alone an access to a captured variable is shown to
be addressed correctly, wherever it stands.
-/

namespace AccScript.ScopeTree

variable {t : ScopeTree} {v : VariableId} {s : ScopeId} {data : Variable} {name : String}

/-- A tree whose names, parameters and slots fit together. -/
structure WellFormed (t : ScopeTree) : Prop where
  ordered : t.Ordered
  /-- The walk toward the root ends in a lexical scope. -/
  root_lexical : ∀ s : Nat, s < t.scopes.size → t.parent? s = none → t.isLexical s = true
  /-- A variable belongs to a scope of the tree. -/
  owned : ∀ v data, t.var? v = some data → data.scope < t.scopes.size
  /-- A name stands for a variable of the scope that has the name. -/
  named : ∀ s name v, t.findLocal? s name = some v →
    ∃ data, t.var? v = some data ∧ data.scope = s
  /-- A parameter is a variable of the scope that has the parameter. -/
  parameter : ∀ s data v, t.variableScope? s = some data → v ∈ data.parameters →
    ∃ data, t.var? v = some data ∧ data.scope = s
  /-- The slot of a captured variable has the variable's name. -/
  slot_named : ∀ v data slot, t.var? v = some data → data.slot = some slot →
    (t.slotNames (t.slotOwner v))[slot]? = some data.name
  /-- No two variables share a slot. -/
  slot_unique : ∀ v w data data' slot, t.var? v = some data → t.var? w = some data' →
    data.slot = some slot → data'.slot = some slot → t.slotOwner v = t.slotOwner w → v = w
  /-- Every slot holds a captured variable. -/
  slot_filled : ∀ s slot, slot < (t.slotNames s).length →
    ∃ v data, t.var? v = some data ∧ data.slot = some slot ∧ t.slotOwner v = s
  /-- An environment exists at run time exactly if it has slots. -/
  needed : ∀ s, t.needsEnv s = true ↔ t.slotNames s ≠ []

theorem WellFormed.slot_lt (wf : t.WellFormed) (v : VariableId) (data : Variable) (slot : Nat)
    (found : t.var? v = some data) (captured : data.slot = some slot) :
    slot < (t.slotNames (t.slotOwner v)).length :=
  (List.getElem?_eq_some_iff.mp (wf.slot_named v data slot found captured)).1

/-! ## The nearest scope with a property -/

theorem nearest_of_exists {p : ScopeId → Bool} (h : ∃ r ∈ t.ancestors s, p r = true) :
    p (t.nearest p s) = true ∧ t.nearest p s ∈ t.ancestors s := by
  obtain ⟨r, hr⟩ := Option.isSome_iff_exists.mp (List.find?_isSome.mpr h)
  rw [nearest, hr, Option.getD_some]
  exact ⟨List.find?_some hr, List.mem_of_find?_eq_some hr⟩

theorem exists_lexical_ancestor (wf : t.WellFormed) {s : Nat} (inside : s < t.scopes.size) :
    ∃ r ∈ t.ancestors s, t.isLexical r = true := by
  induction s using ancestry_induction wf.ordered with
  | root s none =>
    exact ⟨s, self_mem_ancestors t s, wf.root_lexical s inside none⟩
  | step s p some ih =>
    have before : (p : Nat) < s := wf.ordered s p some
    obtain ⟨r, mem, lexical⟩ := ih (Nat.lt_trans before inside)
    refine ⟨r, ?_, lexical⟩
    rw [ancestors_of_parent wf.ordered some]
    exact .tail _ mem

theorem slotOwner_eq (h : t.var? v = some data) :
    t.slotOwner v = t.nearestLexicalScope data.scope := by
  rw [slotOwner, h]
  rfl

theorem slotOwner_spec (wf : t.WellFormed) (h : t.var? v = some data) :
    t.isLexical (t.slotOwner v) = true ∧ t.slotOwner v ∈ t.ancestors data.scope := by
  rw [slotOwner_eq h]
  exact nearest_of_exists (exists_lexical_ancestor wf (wf.owned v data h))

theorem slotOwner_of_lexical (h : t.var? v = some data)
    (lexical : t.isLexical data.scope = true) : t.slotOwner v = data.scope := by
  rw [slotOwner_eq h, nearestLexicalScope, nearest, ancestors, ancestorsWithin_succ,
    List.find?_cons_of_pos lexical]
  rfl

/-! ## Environments and slots -/

theorem needsEnv_of_slot (wf : t.WellFormed) {slot : Nat} (h : slot < (t.slotNames s).length) :
    t.needsEnv s = true := by
  rw [wf.needed]
  intro none
  rw [none] at h
  exact Nat.not_lt_zero slot h

theorem slotNames_of_needed {scope : Scope} {env : LexicalEnv} (found : t.scope? s = some scope)
    (needed : scope.env.filter LexicalEnv.isNeeded = some env) :
    t.slotNames s = env.slotNames ∧ t.needsEnv s = true := by
  obtain ⟨present, holds⟩ := Option.filter_eq_some_iff.mp needed
  have slots : t.slotNames s = env.slotNames := by
    simp [slotNames, found, present]
  have needs : t.needsEnv s = true := by
    simp [needsEnv, found, Scope.needsEnv, present, holds]
  exact ⟨slots, needs⟩

theorem needsEnv_of_not_needed {scope : Scope} (found : t.scope? s = some scope)
    (none : scope.env.filter LexicalEnv.isNeeded = none) : t.needsEnv s = false := by
  rw [needsEnv, found]
  cases h : scope.env with
  | none => simp [Scope.needsEnv, h]
  | some env => simpa [Scope.needsEnv, h] using none

theorem environments_of_captured (wf : t.WellFormed) {slot : Nat}
    (found : t.var? v = some data) (captured : data.slot = some slot)
    (visible : data.scope ∈ t.ancestors s) :
    (t.environments s)[t.level s v]? = some (t.slotOwner v) ∧
      slot < (t.slotNames (t.slotOwner v)).length := by
  have bound := wf.slot_lt v data slot found captured
  obtain ⟨lexical, around⟩ := slotOwner_spec wf found
  have owner := mem_ancestors_trans wf.ordered visible around
  exact ⟨environments_level owner lexical (needsEnv_of_slot wf bound), bound⟩

/-! ## Looking names up -/

theorem findLocal?_of_findIn? {scopes : List ScopeId} {crossed after : Bool}
    (h : t.findIn? name crossed scopes = some (v, after)) :
    ∃ s ∈ scopes, t.findLocal? s name = some v := by
  induction scopes generalizing crossed with
  | nil => simp [findIn?] at h
  | cons s rest ih =>
    rw [findIn?] at h
    cases found : t.findLocal? s name with
    | none =>
      rw [found] at h
      obtain ⟨r, mem, hr⟩ := ih h
      exact ⟨r, List.mem_cons_of_mem s mem, hr⟩
    | some w =>
      rw [found, Option.some.injEq, Prod.mk.injEq] at h
      exact ⟨s, .head _, by rw [found, h.1]⟩

theorem var?_of_find? (wf : t.WellFormed) {crossed : Bool}
    (h : t.find? s name = some (v, crossed)) :
    ∃ data, t.var? v = some data ∧ data.scope ∈ t.ancestors s := by
  obtain ⟨r, mem, found⟩ := findLocal?_of_findIn? h
  obtain ⟨data, hv, rfl⟩ := wf.named r name v found
  exact ⟨data, hv, mem⟩

theorem resolve_eq_lexical (wf : t.WellFormed) {commonjs : Bool}
    {level slot : Nat} (h : t.resolve s name commonjs = .ok (.lexical v level slot)) :
    ∃ data, t.var? v = some data ∧ data.slot = some slot ∧ data.scope ∈ t.ancestors s ∧
      level = t.level s v := by
  rw [resolve] at h
  cases found : t.find? s name with
  | none => simp [found] at h
  | some answer =>
    obtain ⟨w, crossed⟩ := answer
    obtain ⟨data, hw, visible⟩ := var?_of_find? wf found
    simp only [found, hw] at h
    cases storage : data.storage with
    | global => simp [storage] at h
    | module index isExternal => simp [storage] at h
    | «local» =>
      simp only [storage] at h
      split at h
      · simp at h
      · cases captured : data.slot with
        | none =>
          simp only [captured] at h
          split at h <;> simp at h
        | some place =>
          simp only [captured, Except.ok.injEq, Resolution.lexical.injEq] at h
          obtain ⟨rfl, rfl, rfl⟩ := h
          exact ⟨data, hw, captured, visible, rfl⟩

end AccScript.ScopeTree
