import AccScript.Proofs.Scope.Growth

/-!
# Captured variables get slots

Two things happen to a tree once its declarations are bound.  A captured variable gets the next slot
of its environment, and an assignment to an unknown name makes a global.  `Evolves` says what both
have in common: variables keep all but a missing slot, and the only new names are those of globals.
Hence a name that is found stays found, and one that is not can only find a new global later.

A use of a name is *settled* if it needs no promotion any more: resolving it cannot find a captured
variable without a slot.  Processing a use settles it, and later uses do not unsettle it.
-/

namespace AccScript

variable {v : VariableId} {name : String} {data : Variable} {s : ScopeId} {commonjs : Bool}
  {old : Variable} {slot : Nat}

/-- A variable without its slot. -/
def Variable.bare (v : Variable) : Variable :=
  { v with slot := none }

/-- The global that an assignment to an unknown name makes. -/
def Variable.undeclared (name : String) : Variable :=
  { name, kind := .undeclared, storage := .global, scope := ScopeTree.rootId
    startsInitialized := true }

namespace ScopeTree

variable {t u w : ScopeTree}

def slot? (t : ScopeTree) (v : VariableId) : Option Nat :=
  (t.var? v).bind Variable.slot

/-- Scripts and modules; only the root is one. -/
def isTop (t : ScopeTree) (s : ScopeId) : Bool :=
  t.kindIs (fun kind => kind = .global || kind = .esModule) s

/-- A well-formed tree under a script or a module. -/
structure Rooted (t : ScopeTree) : Prop extends WellFormed t where
  top : t.isTop rootId = true

/-! ## Names found without leaving a function -/

theorem find?_of_bound_nearest (ordered : t.Ordered) {s : Nat} (inside : s < t.scopes.size)
    (top : ∀ r : Nat, r < t.scopes.size → t.parent? r = none → t.isVariableScope r = true)
    (bound : t.Bound (t.nearestVariableScope s) name) :
    ∃ v, t.find? s name = some (v, false) := by
  induction s using ancestry_induction ordered with
  | root s none =>
    rw [nearestVariableScope, nearest_of_self (top s inside none)] at bound
    obtain ⟨v, found⟩ := bound
    refine ⟨v, ?_⟩
    rw [find?, ancestors_of_root none, findIn?, found]
  | step s p some ih =>
    by_cases own : ∃ v, t.findLocal? s name = Option.some v
    · obtain ⟨v, found⟩ := own
      refine ⟨v, ?_⟩
      rw [find?, ancestors_of_parent ordered some, findIn?, found]
    · have free : t.findLocal? s name = none := Option.not_isSome_iff_eq_none.mp fun present =>
        own (Option.isSome_iff_exists.mp present)
      have inner : t.isVariableScope s = false := by
        by_contra isVariable
        rw [Bool.not_eq_false] at isVariable
        rw [nearestVariableScope, nearest_of_self isVariable] at bound
        exact own bound
      rw [nearestVariableScope, nearest_of_parent ordered some inner] at bound
      obtain ⟨v, found⟩ := ih (Nat.lt_trans (ordered s p some) inside) bound
      have crossing : t.kindIs (· = .function) s = false := by
        unfold isVariableScope kindIs at inner
        unfold kindIs
        cases scope : t.scope? s with
        | none => rfl
        | some data =>
          rw [scope] at inner
          cases kind : data.kind <;> simp_all [ScopeKind.isVariableScope]
      refine ⟨v, ?_⟩
      rw [find?, ancestors_of_parent ordered some, findIn?, free]
      rw [crossing]
      exact found

theorem find?_of_bound (bound : t.Bound s name) : ∃ v, t.find? s name = some (v, false) := by
  obtain ⟨v, found⟩ := bound
  refine ⟨v, ?_⟩
  rw [find?, ancestors, ancestorsWithin_succ, findIn?, found]

/-! ## Promotion -/

theorem promote_of_free (present : t.var? v = some data) (free : data.slot = none) :
    (t.promote v).2 =
      (t.pushSlot (t.slotOwner v) data.name).modifyVariable v fun data =>
        { data with slot := some (t.slotNames (t.slotOwner v)).length } := by
  unfold promote
  simp only [present, free]
  rfl

theorem promote_of_captured (present : t.var? v = some data)
    (captured : data.slot = some slot) : (t.promote v).2 = t := by
  unfold promote
  simp only [present, captured]

/-- A variable without a slot gets the next one of its environment. -/
structure Assigns (t u : ScopeTree) (v : VariableId) (data : Variable) : Prop where
  present : t.var? v = some data
  free : data.slot = none
  bare : u.scopes.map Scope.bare = t.scopes.map Scope.bare
  nodeScopes : u.nodeScopes = t.nodeScopes
  names : ∀ s name, u.findLocal? s name = t.findLocal? s name
  parameters : ∀ s, u.variableScope? s = t.variableScope? s
  vars : ∀ w, u.var? w = if v = w then
    some { data with slot := some (t.slotNames (t.slotOwner v)).length } else t.var? w
  slots : ∀ s, u.slotNames s =
    if t.slotOwner v = s then t.slotNames s ++ [data.name] else t.slotNames s
  needs : ∀ s, u.needsEnv s = if t.slotOwner v = s then true else t.needsEnv s

theorem slotOwner_lt (wf : t.WellFormed) (present : t.var? v = some data) :
    t.slotOwner v < t.scopes.size :=
  Nat.lt_of_le_of_lt (mem_ancestors_le wf.ordered (slotOwner_spec wf present).2)
    (wf.owned v data present)

theorem assigns_promote (wf : t.WellFormed) (present : t.var? v = some data)
    (free : data.slot = none) : t.Assigns (t.promote v).2 v data := by
  have inside := slotOwner_lt wf present
  rw [promote_of_free present free]
  refine ⟨present, free, bare_pushSlot t _ data.name, rfl,
    findLocal?_modifyScope (by exact fun _ => rfl) t _,
    variableScope?_modifyScope (by exact fun _ => rfl) t _, fun w => ?_, fun s => ?_, fun s => ?_⟩
  · rw [var?_modifyVariable]
    split
    · rename_i same
      subst same
      show (t.var? v).map _ = _
      rw [present]
      rfl
    · rfl
  · refine (slotNames_pushSlot t _ s data.name).trans ?_
    by_cases here : t.slotOwner v = s
    · subst here
      simp [inside]
    · simp [here]
  · refine (needsEnv_pushSlot t _ s data.name).trans ?_
    by_cases here : t.slotOwner v = s
    · subst here
      simp [inside]
    · simp [here]

theorem promote_cases (wf : t.WellFormed) (v : VariableId) :
    ((t.promote v).2 = t ∧ ∀ data, t.var? v = some data → data.slot.isSome = true) ∨
      ∃ data, t.Assigns (t.promote v).2 v data := by
  cases present : t.var? v with
  | none =>
    have result : (t.promote v).2 = t := by
      unfold promote
      simp only [present]
    exact .inl ⟨result, nofun⟩
  | some data =>
    cases slot : data.slot with
    | some place =>
      refine .inl ⟨promote_of_captured present slot, fun data' same => ?_⟩
      cases same
      rw [slot]
      rfl
    | none => exact .inr ⟨data, assigns_promote wf present slot⟩

section Assigns

variable {v : VariableId} {data : Variable} (step : t.Assigns u v data)

include step

variable {w : VariableId}

theorem Assigns.kept (found : t.var? w = some old) :
    ∃ new, u.var? w = some new ∧ new.scope = old.scope ∧ new.name = old.name := by
  rw [step.vars]
  split
  · rename_i same
    subst same
    rw [step.present] at found
    cases found
    exact ⟨_, rfl, rfl, rfl⟩
  · exact ⟨old, found, rfl, rfl⟩

theorem Assigns.known {new : Variable} (found : u.var? w = some new) :
    ∃ old, t.var? w = some old ∧ old.scope = new.scope ∧ old.name = new.name := by
  rw [step.vars] at found
  split at found
  · rename_i same
    subst same
    cases found
    exact ⟨data, step.present, rfl, rfl⟩
  · exact ⟨new, found, rfl, rfl⟩

theorem Assigns.slotOwner (w : VariableId) : u.slotOwner w = t.slotOwner w := by
  refine slotOwner_of_var? step.bare ?_
  rw [step.vars]
  split
  · rename_i same
    subst same
    rw [step.present]
    rfl
  · rfl

theorem Assigns.slot_cases {new : Variable} (found : u.var? w = some new)
    (captured : new.slot = some slot) :
    (w = v ∧ new.name = data.name ∧ slot = (t.slotNames (t.slotOwner v)).length) ∨
      (w ≠ v ∧ t.var? w = some new) := by
  rw [step.vars] at found
  split at found
  · rename_i same
    cases found
    cases captured
    exact .inl ⟨same.symm, rfl, rfl⟩
  · rename_i different
    exact .inr ⟨Ne.symm different, found⟩

/-- A promotion fills the slot that it adds. -/
theorem Assigns.wellFormed (wf : t.WellFormed) : u.WellFormed := by
  have views := wf.of_bare step.bare
  have old_slot : ∀ {w old slot}, t.var? w = some old → old.slot = some slot →
      slot < (t.slotNames (t.slotOwner w)).length := fun found captured =>
    wf.slot_lt _ _ _ found captured
  refine ⟨views.1, views.2, ?_, ?_, ?_, ?_, ?_, ?_, ?_⟩
  · intro w new found
    obtain ⟨old, present, scope, -⟩ := step.known found
    rw [size_of_bare step.bare, ← scope]
    exact wf.owned w old present
  · intro s name w found
    rw [step.names] at found
    obtain ⟨old, present, home⟩ := wf.named s name w found
    obtain ⟨new, found', scope, -⟩ := step.kept present
    exact ⟨new, found', scope.trans home⟩
  · intro s params w found mem
    rw [step.parameters] at found
    obtain ⟨old, present, home⟩ := wf.parameter s params w found mem
    obtain ⟨new, found', scope, -⟩ := step.kept present
    exact ⟨new, found', scope.trans home⟩
  · intro w new slot found captured
    rw [step.slotOwner, step.slots]
    rcases step.slot_cases found captured with ⟨rfl, name, rfl⟩ | ⟨-, before⟩
    · rw [if_pos rfl, List.getElem?_concat_length, name]
    · have placed := wf.slot_named w new slot before captured
      split
      · rw [List.getElem?_append_left (old_slot before captured)]
        exact placed
      · exact placed
  · intro w x new new' slot found found' captured captured' owners
    rw [step.slotOwner, step.slotOwner] at owners
    rcases step.slot_cases found captured with ⟨rfl, -, rfl⟩ | ⟨-, before⟩ <;>
      rcases step.slot_cases found' captured' with ⟨rfl, -, same⟩ | ⟨-, before'⟩
    · rfl
    · have bound := old_slot before' captured'
      rw [owners] at bound
      exact absurd bound (Nat.lt_irrefl _)
    · have bound := old_slot before captured
      rw [same, owners] at bound
      exact absurd bound (Nat.lt_irrefl _)
    · exact wf.slot_unique w x new new' slot before before' captured captured' owners
  · intro s slot bound
    rw [step.slots] at bound
    -- the new slot is that of the promoted variable, all others were filled before
    have old : slot < (t.slotNames s).length → ∃ w new, u.var? w = some new ∧
        new.slot = some slot ∧ u.slotOwner w = s := by
      intro before
      obtain ⟨w, new, found, captured, owned⟩ := wf.slot_filled s slot before
      have different : v ≠ w := by
        rintro rfl
        rw [step.present] at found
        cases found
        rw [step.free] at captured
        cases captured
      refine ⟨w, new, ?_, captured, (step.slotOwner w).trans owned⟩
      rw [step.vars, if_neg different]
      exact found
    split at bound
    · rename_i here
      rw [List.length_append, List.length_singleton] at bound
      by_cases before : slot < (t.slotNames s).length
      · exact old before
      · obtain rfl : slot = (t.slotNames s).length := by omega
        subst here
        exact ⟨v, _, (step.vars v).trans (if_pos rfl), rfl, step.slotOwner v⟩
    · exact old bound
  · intro s
    rw [step.needs, step.slots]
    split
    · simp
    · exact wf.needed s

end Assigns

/-! ## Globals made by assignments -/

/-- A name that is free at the root gets a global. -/
structure Introduces (t u : ScopeTree) (name : String) : Prop where
  free : t.findLocal? rootId name = none
  bare : u.scopes.map Scope.bare = t.scopes.map Scope.bare
  nodeScopes : u.nodeScopes = t.nodeScopes
  names : ∀ s other, u.findLocal? s other =
    if s = rootId ∧ other = name then some t.vars.size else t.findLocal? s other
  parameters : ∀ s, u.variableScope? s = t.variableScope? s
  vars : ∀ v, u.var? v = if v = t.vars.size then some (.undeclared name) else t.var? v
  wellFormed : u.WellFormed

theorem Rooted.rootId_lt (rooted : t.Rooted) : rootId < t.scopes.size :=
  lt_size_of_kindIs rooted.top

theorem Rooted.kind (rooted : t.Rooted) {scope : Scope} (found : t.scope? rootId = some scope) :
    scope.kind.isVariableScope = true ∧ scope.kind.isLexical = true := by
  have top := rooted.top
  rw [isTop, kindIs, found] at top
  cases kind : scope.kind <;> simp_all [ScopeKind.isVariableScope, ScopeKind.isLexical]

theorem storageFor_undeclared
    {kind : ScopeKind} (top : (kind = .global || kind = .esModule) = true) :
    storageFor kind .undeclared .notModule = .global := by
  cases kind <;> first | rfl | cases top

/-- All that the addition of a global can do. -/
theorem add_root_cases (rooted : t.Rooted) (name : String) :
    ((t.add rootId name .undeclared .notModule).2 = t ∧ t.Bound rootId name) ∨
      t.Introduces (t.add rootId name .undeclared .notModule).2 name := by
  have inside := rooted.rootId_lt
  obtain ⟨scope, found⟩ := exists_scope? inside
  have top : (scope.kind = .global || scope.kind = .esModule) = true := by
    have top := rooted.top
    rwa [isTop, kindIs, found] at top
  have step : t.add rootId name .undeclared .notModule =
      t.addHere rootId scope.kind name .undeclared .notModule := by
    unfold add
    simp only [found, Option.map_some, Option.getD_some]
    cases kind : scope.kind <;> simp_all
  have here := binds_addHere rooted.toWellFormed inside scope.kind name .undeclared .notModule
  rw [step]
  unfold addHere at here ⊢
  cases free : t.findLocal? rootId name with
  | some v => exact .inl ⟨rfl, v, free⟩
  | none =>
    rw [free, storageFor_undeclared top] at here
    simp only [storageFor_undeclared top]
    refine .inr ⟨free, here.grown.bare, here.grown.nodeScopes, fun s other => ?_, fun s => ?_,
      fun v => ?_, here.wellFormed⟩
    · refine (findLocal?_setName _ rootId s name other _).trans ?_
      by_cases root : s = rootId
      · subst root
        have there : rootId < (t.pushVariable (.undeclared name)).2.scopes.size := inside
        by_cases same : other = name
        · exact (if_pos ⟨rfl, same, there⟩).trans (if_pos ⟨rfl, same⟩).symm
        · simp only [same, false_and, and_false, if_false]
          rfl
      · have other_scope : ¬rootId = s := Ne.symm root
        simp only [root, other_scope, false_and, if_false]
        rfl
    · exact variableScope?_setName _ rootId s name _
    · exact var?_pushVariable t (.undeclared name) v

/-! ## What both steps have in common -/

/-- Variables keep all but a missing slot, and the only new names are those of globals. -/
structure Evolves (t u : ScopeTree) : Prop where
  bare : u.scopes.map Scope.bare = t.scopes.map Scope.bare
  nodeScopes : u.nodeScopes = t.nodeScopes
  parameters : ∀ s, u.variableScope? s = t.variableScope? s
  vars : ∀ v old, t.var? v = some old → ∃ new, u.var? v = some new ∧ new.bare = old.bare ∧
    ∀ slot, old.slot = some slot → new.slot = some slot
  names : ∀ s name v, t.findLocal? s name = some v → u.findLocal? s name = some v
  fresh : ∀ s name v, u.findLocal? s name = some v → t.findLocal? s name = some v ∨
    (s = rootId ∧ t.var? v = none ∧
      ∃ new, u.var? v = some new ∧ new.bare = .undeclared name)

theorem Evolves.refl (t : ScopeTree) : t.Evolves t :=
  ⟨rfl, rfl, fun _ => rfl, fun _ old found => ⟨old, found, rfl, fun _ h => h⟩,
    fun _ _ _ h => h, fun _ _ _ h => .inl h⟩

theorem Evolves.trans (h : t.Evolves u) (h' : u.Evolves w) : t.Evolves w := by
  refine ⟨h'.bare.trans h.bare, h'.nodeScopes.trans h.nodeScopes,
    fun s => (h'.parameters s).trans (h.parameters s), fun v old found => ?_,
    fun s name v found => h'.names s name v (h.names s name v found), fun s name v found => ?_⟩
  · obtain ⟨mid, found', same, slots⟩ := h.vars v old found
    obtain ⟨new, found'', same', slots'⟩ := h'.vars v mid found'
    exact ⟨new, found'', same'.trans same, fun slot taken => slots' slot (slots slot taken)⟩
  · rcases h'.fresh s name v found with before | ⟨root, unknown, new, present, same⟩
    · rcases h.fresh s name v before with first | ⟨root, unknown, mid, present, same⟩
      · exact .inl first
      · obtain ⟨new, present', same', -⟩ := h'.vars v mid present
        exact .inr ⟨root, unknown, new, present', same'.trans same⟩
    · refine .inr ⟨root, ?_, new, present, same⟩
      cases first : t.var? v with
      | none => rfl
      | some old =>
        obtain ⟨mid, present', -⟩ := h.vars v old first
        rw [present'] at unknown
        cases unknown

theorem Assigns.evolves (step : t.Assigns u v data) : t.Evolves u := by
  refine ⟨step.bare, step.nodeScopes, step.parameters, fun w old found => ?_,
    fun s name x found => (step.names s name).trans found,
    fun s name x found => .inl ((step.names s name).symm.trans found)⟩
  rw [step.vars]
  split
  · rename_i same
    subst same
    rw [step.present] at found
    cases found
    refine ⟨_, rfl, rfl, fun slot taken => ?_⟩
    rw [step.free] at taken
    cases taken
  · exact ⟨old, found, rfl, fun _ taken => taken⟩

theorem Introduces.evolves (step : t.Introduces u name) : t.Evolves u := by
  refine ⟨step.bare, step.nodeScopes, step.parameters, fun v old found => ?_,
    fun s other v found => ?_, fun s other v found => ?_⟩
  · have before : v ≠ t.vars.size := Nat.ne_of_lt (lt_size_of_var? found)
    rw [step.vars, if_neg before]
    exact ⟨old, found, rfl, fun _ taken => taken⟩
  · rw [step.names]
    split
    · rename_i here
      obtain ⟨rfl, rfl⟩ := here
      rw [step.free] at found
      cases found
    · exact found
  · rw [step.names] at found
    split at found
    · rename_i here
      obtain ⟨rfl, rfl⟩ := here
      cases found
      refine .inr ⟨rfl, Array.getElem?_eq_none (Nat.le_refl _), .undeclared other, ?_, rfl⟩
      rw [step.vars, if_pos rfl]
    · exact .inl found

section Evolves

variable (step : t.Evolves u)

include step

theorem Evolves.extends : t.Extends u := by
  refine ⟨step.bare, step.nodeScopes, fun s name bound => ?_, fun s data found => ?_⟩
  · obtain ⟨v, found⟩ := bound
    exact ⟨v, step.names s name v found⟩
  · exact ⟨data, (step.parameters s).trans found, Nat.le_refl _⟩

theorem Evolves.slot? (taken : t.slot? v = some slot) : u.slot? v = some slot := by
  obtain ⟨old, found, captured⟩ := Option.bind_eq_some_iff.mp taken
  obtain ⟨new, found', -, slots⟩ := step.vars v old found
  exact Option.bind_eq_some_iff.mpr ⟨new, found', slots slot captured⟩

theorem Evolves.findIn? {scopes : List ScopeId} {crossed after : Bool}
    (found : u.findIn? name crossed scopes = some (v, after)) :
    t.findIn? name crossed scopes = some (v, after) ∨
      (rootId ∈ scopes ∧ u.findLocal? rootId name = some v ∧ t.var? v = none ∧
        ∃ new, u.var? v = some new ∧ new.bare = .undeclared name) := by
  induction scopes generalizing crossed with
  | nil => cases found
  | cons r rest ih =>
    rw [ScopeTree.findIn?] at found ⊢
    cases here : u.findLocal? r name with
    | some x =>
      rw [here] at found
      cases found
      rcases step.fresh r name v here with old | ⟨rfl, unknown, new⟩
      · rw [old]
        exact .inl rfl
      · exact .inr ⟨.head _, here, unknown, new⟩
    | none =>
      rw [here] at found
      have free : t.findLocal? r name = none := by
        cases before : t.findLocal? r name with
        | none => rfl
        | some x =>
          rw [step.names r name x before] at here
          cases here
      rw [free]
      rw [kindIs_of_bare step.bare] at found
      rcases ih found with before | ⟨root, new⟩
      · exact .inl before
      · exact .inr ⟨.tail _ root, new⟩

theorem Evolves.find?_cases {crossed : Bool} (found : u.find? s name = some (v, crossed)) :
    t.find? s name = some (v, crossed) ∨
      (rootId ∈ t.ancestors s ∧ u.findLocal? rootId name = some v ∧ t.var? v = none ∧
        ∃ new, u.var? v = some new ∧ new.bare = .undeclared name) := by
  rw [find?, ancestors_of_bare step.bare] at found
  exact step.findIn? found

theorem Evolves.isGlobalRecord (present : t.var? v = some old) (commonjs : Bool) :
    u.isGlobalRecord commonjs v = t.isGlobalRecord commonjs v := by
  obtain ⟨new, present', same, -⟩ := step.vars v old present
  have scope : new.scope = old.scope := (congrArg Variable.scope same :)
  have kind : new.kind = old.kind := (congrArg Variable.kind same :)
  have parameter : new.isParameter = old.isParameter := (congrArg Variable.isParameter same :)
  simp [ScopeTree.isGlobalRecord, present, present', scope, kind, parameter,
    kindIs_of_bare step.bare]

theorem Evolves.isPromotable (present : t.var? v = some old) (commonjs : Bool) :
    u.isPromotable commonjs v = t.isPromotable commonjs v := by
  obtain ⟨new, present', same, -⟩ := step.vars v old present
  have storage : new.storage = old.storage := (congrArg Variable.storage same :)
  simp [ScopeTree.isPromotable, present, present', Variable.isLocal, storage,
    step.isGlobalRecord present]

end Evolves

theorem not_isPromotable_undeclared (present : t.var? v = some data)
    (same : data.bare = .undeclared name) (commonjs : Bool) :
    t.isPromotable commonjs v = false := by
  have storage : data.storage = .global := (congrArg Variable.storage same :)
  simp [isPromotable, present, Variable.isLocal, storage]

theorem Evolves.findIn?_of_some (step : t.Evolves u) {scopes : List ScopeId} {crossed after : Bool}
    (last : ∀ inner outer, scopes = inner ++ rootId :: outer → outer = [])
    (found : t.findIn? name crossed scopes = some (v, after)) :
    u.findIn? name crossed scopes = some (v, after) := by
  induction scopes generalizing crossed with
  | nil => cases found
  | cons r rest ih =>
    rw [ScopeTree.findIn?] at found ⊢
    cases here : t.findLocal? r name with
    | some x =>
      rw [here] at found
      rw [step.names r name x here]
      exact found
    | none =>
      rw [here] at found
      have inner : rest ≠ [] := by
        rintro rfl
        cases found
      have free : u.findLocal? r name = none := by
        cases later : u.findLocal? r name with
        | none => rfl
        | some x =>
          rcases step.fresh r name x later with before | ⟨rfl, -⟩
          · rw [before] at here
            cases here
          · exact absurd (last [] rest rfl) inner
      rw [free, kindIs_of_bare step.bare]
      refine ih (fun front outer split => ?_) found
      exact last (r :: front) outer (congrArg (r :: ·) split)

theorem root_last (ordered : t.Ordered) {inner outer : List ScopeId}
    (split : t.ancestors s = inner ++ rootId :: outer) : outer = [] := by
  have root : t.parent? rootId = none := by
    cases parent : t.parent? rootId with
    | none => rfl
    | some p => exact absurd (ordered rootId p parent) (Nat.not_lt_zero p)
  induction s using ancestry_induction ordered generalizing inner with
  | root s none =>
    rw [ancestors_of_root none] at split
    cases inner with
    | nil => exact (List.cons.inj split).2.symm
    | cons first rest => simp at split
  | step s p some ih =>
    rw [ancestors_of_parent ordered some] at split
    cases inner with
    | nil =>
      obtain rfl : s = rootId := (List.cons.inj split).1
      rw [root] at some
      cases some
    | cons first rest => exact ih (List.cons.inj split).2

theorem Evolves.find?_of_some (step : t.Evolves u) (ordered : t.Ordered)
    {crossed : Bool} (found : t.find? s name = some (v, crossed)) :
    u.find? s name = some (v, crossed) := by
  rw [find?, ancestors_of_bare step.bare]
  exact step.findIn?_of_some (fun _ _ split => root_last ordered split) found

/-! ## Uses of names -/

/-- A use of a name reaches a variable from within another function. -/
def Captures (t : ScopeTree) (commonjs : Bool) (reference : Reference) (v : VariableId) : Prop :=
  t.find? reference.scope reference.name = some (v, true) ∧ t.isPromotable commonjs v = true

theorem Evolves.captures (step : t.Evolves u) (wf : t.WellFormed) {reference : Reference}
    : u.Captures commonjs reference v ↔ t.Captures commonjs reference v := by
  constructor
  · rintro ⟨found, promotable⟩
    rcases step.find?_cases found with before | ⟨-, -, -, new, present, same⟩
    · obtain ⟨old, present, -⟩ := var?_of_find? wf before
      rw [step.isPromotable present] at promotable
      exact ⟨before, promotable⟩
    · rw [not_isPromotable_undeclared present same] at promotable
      cases promotable
  · rintro ⟨found, promotable⟩
    obtain ⟨old, present, -⟩ := var?_of_find? wf found
    refine ⟨step.find?_of_some wf.ordered found, ?_⟩
    rw [step.isPromotable present]
    exact promotable

/-- A captured variable that a name finds has a slot. -/
def Settled (t : ScopeTree) (commonjs : Bool) (s : ScopeId) (name : String) : Prop :=
  ∀ v, t.find? s name = some (v, true) → t.isPromotable commonjs v = true →
    (t.slot? v).isSome = true

theorem Settled.resolve_error (h : t.Settled commonjs s name)
    {failure : Failure} (failed : t.resolve s name commonjs = .error failure) :
    failure = .unmet := by
  unfold resolve at failed
  split at failed
  · cases failed
  · rename_i v crossed found
    split at failed
    · cases failed
      rfl
    · rename_i data present
      split at failed
      · cases failed
      · cases failed
      · rename_i storage
        split at failed
        · cases failed
        · rename_i record
          split at failed
          · cases failed
          · rename_i free
            split at failed
            · rename_i captured
              have promotable : t.isPromotable commonjs v = true := by
                simp [isPromotable, present, Variable.isLocal, storage, record]
              subst captured
              have slot := h v found promotable
              rw [slot?, present, Option.bind_some, free] at slot
              cases slot
            · cases failed

theorem settled_of_uncrossed
    (h : ∃ v, t.find? s name = some (v, false)) : t.Settled commonjs s name := by
  obtain ⟨v, found⟩ := h
  intro w crossed
  rw [found] at crossed
  cases crossed

theorem Settled.evolves (h : t.Settled commonjs s name)
    (wf : t.WellFormed) (step : t.Evolves u) : u.Settled commonjs s name := by
  intro v found promotable
  have captured : u.Captures commonjs ⟨s, name, false⟩ v := ⟨found, promotable⟩
  obtain ⟨found', promotable'⟩ := (step.captures wf).mp captured
  obtain ⟨slot, taken⟩ := Option.isSome_iff_exists.mp (h v found' promotable')
  exact Option.isSome_iff_exists.mpr ⟨slot, step.slot? taken⟩

/-- A use of a name that has nothing more to do: what it captures has a slot, and what it assigns
is known. -/
structure Processed (t : ScopeTree) (commonjs : Bool) (reference : Reference) : Prop where
  settled : t.Settled commonjs reference.scope reference.name
  known : t.find? reference.scope reference.name = none → reference.isAssignment = true →
    t.Bound rootId reference.name

theorem Processed.evolves {reference : Reference} (h : t.Processed commonjs reference)
    (wf : t.WellFormed) (step : t.Evolves u) : u.Processed commonjs reference := by
  refine ⟨h.settled.evolves wf step, fun missing assigned => ?_⟩
  have missed : t.find? reference.scope reference.name = none := by
    cases found : t.find? reference.scope reference.name with
    | none => rfl
    | some answer =>
      obtain ⟨v, crossed⟩ := answer
      rw [step.find?_of_some wf.ordered found] at missing
      cases missing
  obtain ⟨v, bound⟩ := h.known missed assigned
  exact ⟨v, step.names _ _ v bound⟩

theorem resolveReference_cases (rooted : t.Rooted) (commonjs : Bool) (reference : Reference) :
    (resolveReference commonjs t reference = t ∧ t.Processed commonjs reference) ∨
      (∃ v data, t.Captures commonjs reference v ∧
        t.Assigns (resolveReference commonjs t reference) v data) ∨
      (t.find? reference.scope reference.name = none ∧ reference.isAssignment = true ∧
        t.Introduces (resolveReference commonjs t reference) reference.name) := by
  unfold resolveReference
  cases found : t.find? reference.scope reference.name with
  | some answer =>
    obtain ⟨v, crossed⟩ := answer
    by_cases captured : (crossed && t.isPromotable commonjs v) = true
    · dsimp only
      rw [if_pos captured]
      obtain ⟨rfl, promotable⟩ := Bool.and_eq_true_iff.mp captured
      rcases promote_cases rooted.toWellFormed v with ⟨same, taken⟩ | ⟨data, step⟩
      · refine .inl ⟨same, fun w found' _ => ?_, fun missing => ?_⟩
        · obtain ⟨data, present, -⟩ := var?_of_find? rooted.toWellFormed found
          rw [found] at found'
          cases found'
          rw [slot?, present]
          exact taken data present
        · rw [found] at missing
          cases missing
      · exact .inr (.inl ⟨v, data, ⟨found, promotable⟩, step⟩)
    · dsimp only
      rw [if_neg captured]
      refine .inl ⟨rfl, fun w found' promotable => ?_, fun missing => ?_⟩
      · rw [found] at found'
        cases found'
        exact absurd promotable (by simpa using captured)
      · rw [found] at missing
        cases missing
  | none =>
    have settled : t.Settled commonjs reference.scope reference.name := by
      intro v found'
      rw [found] at found'
      cases found'
    cases assigned : reference.isAssignment with
    | false =>
      refine .inl ⟨rfl, settled, fun _ assignment => ?_⟩
      rw [assigned] at assignment
      cases assignment
    | true =>
      rcases add_root_cases rooted reference.name with ⟨same, bound⟩ | step
      · exact .inl ⟨same, settled, fun _ _ => bound⟩
      · exact .inr (.inr ⟨rfl, rfl, step⟩)

/-- What the processing of references does to a tree. -/
structure Resolves (t u : ScopeTree) : Prop where
  rooted : u.Rooted
  evolves : t.Evolves u

theorem Resolves.of_wellFormed
    (rooted : t.Rooted) (wf : u.WellFormed) (step : t.Evolves u) : t.Resolves u := by
  refine ⟨⟨wf, ?_⟩, step⟩
  rw [isTop, kindIs_of_bare step.bare]
  exact rooted.top

theorem Resolves.trans (h : t.Resolves u) (h' : u.Resolves w) : t.Resolves w :=
  ⟨h'.rooted, h.evolves.trans h'.evolves⟩

theorem resolves_promote (rooted : t.Rooted) (v : VariableId) : t.Resolves (t.promote v).2 := by
  rcases promote_cases rooted.toWellFormed v with ⟨same, -⟩ | ⟨data, step⟩
  · rw [same]
    exact ⟨rooted, .refl t⟩
  · exact .of_wellFormed rooted (step.wellFormed rooted.toWellFormed) step.evolves

theorem resolves_resolveReference (rooted : t.Rooted) (commonjs : Bool) (reference : Reference) :
    t.Resolves (resolveReference commonjs t reference) ∧
      (resolveReference commonjs t reference).Processed commonjs reference := by
  rcases resolveReference_cases rooted commonjs reference with
    ⟨same, processed⟩ | ⟨v, data, captures, step⟩ | ⟨missing, assigned, step⟩
  · rw [same]
    exact ⟨⟨rooted, .refl t⟩, processed⟩
  · have found := step.evolves.find?_of_some rooted.ordered captures.1
    refine ⟨.of_wellFormed rooted (step.wellFormed rooted.toWellFormed) step.evolves,
      fun w found' _ => ?_, fun missing => ?_⟩
    · rw [found] at found'
      cases found'
      rw [slot?, step.vars, if_pos rfl]
      rfl
    · rw [found] at missing
      cases missing
  · refine ⟨.of_wellFormed rooted step.wellFormed step.evolves, fun v found promotable => ?_,
      fun _ _ => ⟨t.vars.size, ?_⟩⟩
    · have before := ((step.evolves.captures rooted.toWellFormed).mp ⟨found, promotable⟩).1
      rw [missing] at before
      cases before
    · rw [step.names, if_pos ⟨rfl, rfl⟩]

theorem resolveReferences_cons (t : ScopeTree) (commonjs : Bool) (reference : Reference)
    (rest : List Reference) :
    t.resolveReferences commonjs (reference :: rest) =
      (resolveReference commonjs t reference).resolveReferences commonjs rest :=
  rfl

theorem resolves_resolveReferences
    (rooted : t.Rooted) (commonjs : Bool) (references : List Reference) :
    t.Resolves (t.resolveReferences commonjs references) ∧
      ∀ reference ∈ references,
        (t.resolveReferences commonjs references).Processed commonjs reference := by
  induction references generalizing t with
  | nil => exact ⟨⟨rooted, .refl t⟩, nofun⟩
  | cons reference rest ih =>
    obtain ⟨step, processed⟩ := resolves_resolveReference rooted commonjs reference
    obtain ⟨later, others⟩ := ih step.rooted
    rw [resolveReferences_cons]
    refine ⟨step.trans later, fun other mem => ?_⟩
    rcases List.mem_cons.mp mem with rfl | mem
    · exact processed.evolves step.rooted.toWellFormed later.evolves
    · exact others other mem

end ScopeTree

end AccScript
