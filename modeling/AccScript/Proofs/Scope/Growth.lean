import AccScript.Proofs.Scope.WellFormed
import AccScript.Proofs.Text.OrderedMap

/-!
# Scope trees that get variables

Once all scopes are there, variables are made for them: a variable is added, a name is made to
stand for it, a parameter is appended, a captured variable gets a slot.  None of these steps moves a
scope or unbinds a name, and each keeps the tree well-formed.

`Extends` says what all of these steps have in common.
-/

namespace AccScript

variable {id : ScopeId} {data : Variable} {v : VariableId} {s : ScopeId}

/-- The part of a scope that is settled before there are variables. -/
def Scope.bare (scope : Scope) : Scope :=
  { scope with
    names := []
    env := none
    variableScope := scope.variableScope.map fun data => { data with parameters := [] } }

namespace ScopeTree

variable {t u w : ScopeTree}

def Bound (t : ScopeTree) (s : ScopeId) (name : String) : Prop :=
  ∃ v, t.findLocal? s name = some v

/-- A tree with the same scopes and at least the same bindings. -/
structure Extends (t u : ScopeTree) : Prop where
  bare : u.scopes.map Scope.bare = t.scopes.map Scope.bare
  nodeScopes : u.nodeScopes = t.nodeScopes
  names : ∀ s name, t.Bound s name → u.Bound s name
  parameters : ∀ s data, t.variableScope? s = some data →
    ∃ data', u.variableScope? s = some data' ∧ data.parameters.length ≤ data'.parameters.length

theorem Extends.refl (t : ScopeTree) : t.Extends t :=
  ⟨rfl, rfl, fun _ _ h => h, fun _ data h => ⟨data, h, Nat.le_refl _⟩⟩

theorem Extends.trans (h : t.Extends u) (h' : u.Extends w) : t.Extends w := by
  refine ⟨h'.bare.trans h.bare, h'.nodeScopes.trans h.nodeScopes,
    fun s name bound => h'.names s name (h.names s name bound), fun s data found => ?_⟩
  obtain ⟨data', found', le⟩ := h.parameters s data found
  obtain ⟨data'', found'', le'⟩ := h'.parameters s data' found'
  exact ⟨data'', found'', Nat.le_trans le le'⟩

/-! ## The same scopes -/

section Bare

variable (same : u.scopes.map Scope.bare = t.scopes.map Scope.bare)

include same

theorem map_scope?_of_bare (s : ScopeId) :
    (u.scope? s).map Scope.bare = (t.scope? s).map Scope.bare := by
  unfold scope?
  rw [← Array.getElem?_map, ← Array.getElem?_map, same]

theorem size_of_bare : u.scopes.size = t.scopes.size := by
  have sizes := congrArg Array.size same
  rwa [Array.size_map, Array.size_map] at sizes

theorem parent?_of_bare (s : ScopeId) : u.parent? s = t.parent? s := by
  have scopes := map_scope?_of_bare same s
  unfold parent?
  cases hu : u.scope? s <;> cases ht : t.scope? s <;> simp [hu, ht] at scopes ⊢
  have parents := congrArg Scope.parent scopes
  exact parents

theorem kindIs_of_bare (p : ScopeKind → Bool) (s : ScopeId) : u.kindIs p s = t.kindIs p s := by
  have scopes := map_scope?_of_bare same s
  unfold kindIs
  cases hu : u.scope? s <;> cases ht : t.scope? s <;> simp [hu, ht] at scopes ⊢
  have kinds := congrArg Scope.kind scopes
  exact congrArg p kinds

theorem ancestors_of_bare (s : ScopeId) : u.ancestors s = t.ancestors s := by
  rw [ancestors_congr (funext (parent?_of_bare same))]

theorem nearest_of_bare (p : ScopeKind → Bool) (s : ScopeId) :
    u.nearest (u.kindIs p) s = t.nearest (t.kindIs p) s := by
  rw [nearest_congr (funext (parent?_of_bare same)) (funext (kindIs_of_bare same p))]

theorem nearestLexicalScope_of_bare (s : ScopeId) :
    u.nearestLexicalScope s = t.nearestLexicalScope s :=
  nearest_of_bare same _ s

theorem nearestVariableScope_of_bare (s : ScopeId) :
    u.nearestVariableScope s = t.nearestVariableScope s :=
  nearest_of_bare same _ s

end Bare

/-! ## Views after a step -/

theorem scope?_modifyScope (t : ScopeTree) (id s : ScopeId) (f : Scope → Scope) :
    (t.modifyScope id f).scope? s = if id = s then (t.scope? s).map f else t.scope? s := by
  simp only [modifyScope, scope?, Array.getElem?_modify]

theorem map_modifyScope {α : Type} {view : Scope → α} {f : Scope → Scope}
    (h : ∀ scope, view (f scope) = view scope) (t : ScopeTree) (id : ScopeId) :
    (t.modifyScope id f).scopes.map view = t.scopes.map view := by
  refine Array.ext_getElem? fun s => ?_
  rw [Array.getElem?_map, Array.getElem?_map]
  have view := scope?_modifyScope t id s f
  unfold scope? at view
  rw [view]
  split
  · cases t.scopes[s]? <;> simp [h]
  · rfl

theorem findLocal?_modifyScope {f : Scope → Scope} (h : ∀ scope, (f scope).names = scope.names)
    (t : ScopeTree) (id s : ScopeId) (name : String) :
    (t.modifyScope id f).findLocal? s name = t.findLocal? s name := by
  unfold findLocal?
  rw [scope?_modifyScope]
  split
  · cases t.scope? s <;> simp [h]
  · rfl

theorem variableScope?_modifyScope {f : Scope → Scope}
    (h : ∀ scope, (f scope).variableScope = scope.variableScope) (t : ScopeTree) (id s : ScopeId) :
    (t.modifyScope id f).variableScope? s = t.variableScope? s := by
  unfold variableScope?
  rw [scope?_modifyScope]
  split
  · cases t.scope? s <;> simp [h]
  · rfl

theorem slots_modifyScope {f : Scope → Scope} (h : ∀ scope, (f scope).env = scope.env)
    (t : ScopeTree) (id s : ScopeId) : (t.modifyScope id f).slotNames s = t.slotNames s ∧
      (t.modifyScope id f).needsEnv s = t.needsEnv s := by
  unfold slotNames needsEnv
  rw [scope?_modifyScope]
  split
  · cases t.scope? s <;> simp [Scope.needsEnv, h]
  · exact ⟨rfl, rfl⟩

theorem var?_modifyVariable (t : ScopeTree) (id v : VariableId) (f : Variable → Variable) :
    (t.modifyVariable id f).var? v = if id = v then (t.var? v).map f else t.var? v := by
  simp only [modifyVariable, var?, Array.getElem?_modify]

theorem var?_pushVariable (t : ScopeTree) (data : Variable) (v : VariableId) :
    (t.pushVariable data).2.var? v = if v = t.vars.size then some data else t.var? v := by
  simp only [pushVariable, var?, Array.getElem?_push]

theorem lt_size_of_var? (h : t.var? v = some data) : v < t.vars.size :=
  (Array.getElem?_eq_some_iff.mp h).1

theorem lt_size_of_scope? {scope : Scope} (h : t.scope? s = some scope) : s < t.scopes.size :=
  (Array.getElem?_eq_some_iff.mp h).1

theorem lt_size_of_kindIs {p : ScopeKind → Bool} (h : t.kindIs p s = true) :
    s < t.scopes.size := by
  unfold kindIs at h
  cases found : t.scope? s with
  | none => simp [found] at h
  | some scope => exact lt_size_of_scope? found

theorem exists_scope? (h : s < t.scopes.size) : ∃ scope, t.scope? s = some scope :=
  ⟨_, Array.getElem?_eq_getElem h⟩

theorem scope?_cases (t : ScopeTree) (s : ScopeId) :
    (t.scope? s = none ∧ ¬s < t.scopes.size) ∨
      ∃ scope, t.scope? s = some scope ∧ s < t.scopes.size := by
  by_cases inside : s < t.scopes.size
  · obtain ⟨scope, found⟩ := exists_scope? inside
    exact .inr ⟨scope, found, inside⟩
  · exact .inl ⟨Array.getElem?_eq_none (Nat.not_lt.mp inside), inside⟩

theorem var?_pushVariable_of_some (new : Variable) (h : t.var? v = some data) :
    (t.pushVariable new).2.var? v = some data := by
  have old : v ≠ t.vars.size := Nat.ne_of_lt (lt_size_of_var? h)
  rw [var?_pushVariable, if_neg old]
  exact h

theorem findLocal?_setName (t : ScopeTree) (id s : ScopeId) (name other : String) (v : VariableId) :
    (t.setName id name v).findLocal? s other =
      if id = s ∧ other = name ∧ s < t.scopes.size then some v else t.findLocal? s other := by
  unfold findLocal? setName
  rw [scope?_modifyScope]
  by_cases here : id = s
  · subst here
    rcases scope?_cases t id with ⟨found, outside⟩ | ⟨scope, found, inside⟩
    · simp [found, outside]
    · simp [OrderedMap.get?_insert, found, inside]
  · simp [here]

theorem slotOwner_of_var? (same : u.scopes.map Scope.bare = t.scopes.map Scope.bare)
    (scope : (u.var? v).map Variable.scope = (t.var? v).map Variable.scope) :
    u.slotOwner v = t.slotOwner v := by
  rw [slotOwner, slotOwner, scope, nearestLexicalScope_of_bare same]

/-! ## Steps that keep a tree well-formed -/

theorem WellFormed.of_bare
    (wf : t.WellFormed) (same : u.scopes.map Scope.bare = t.scopes.map Scope.bare) :
    u.Ordered ∧ ∀ s : Nat, s < u.scopes.size → u.parent? s = none → u.isLexical s = true := by
  constructor
  · intro s p parent
    rw [parent?_of_bare same] at parent
    exact wf.ordered s p parent
  · intro s inside root
    rw [parent?_of_bare same] at root
    rw [size_of_bare same] at inside
    rw [isLexical, kindIs_of_bare same]
    exact wf.root_lexical s inside root

theorem WellFormed.of_views
    (wf : t.WellFormed) (same : u.scopes.map Scope.bare = t.scopes.map Scope.bare)
    (slots : ∀ s, u.slotNames s = t.slotNames s ∧ u.needsEnv s = t.needsEnv s)
    (kept : ∀ v data, t.var? v = some data →
      ∃ data', u.var? v = some data' ∧ data'.scope = data.scope ∧ data'.slot = data.slot)
    (known : ∀ v data, u.var? v = some data → data.scope < t.scopes.size ∧
      ∀ slot, data.slot = some slot →
        ∃ old, t.var? v = some old ∧ data.scope = old.scope ∧ data.name = old.name ∧
          old.slot = some slot)
    (named : ∀ s name v, u.findLocal? s name = some v → t.findLocal? s name = some v ∨
      ∃ data, u.var? v = some data ∧ data.scope = s)
    (parameter : ∀ s data v, u.variableScope? s = some data → v ∈ data.parameters →
      (∃ data', t.variableScope? s = some data' ∧ v ∈ data'.parameters) ∨
        ∃ data, u.var? v = some data ∧ data.scope = s) : u.WellFormed := by
  have views := wf.of_bare same
  have owner : ∀ {v data}, t.var? v = some data → u.slotOwner v = t.slotOwner v := by
    intro v data found
    obtain ⟨data', found', scope, -⟩ := kept v data found
    refine slotOwner_of_var? same ?_
    rw [found, found', Option.map_some, Option.map_some, scope]
  have present : ∀ {v data s}, t.var? v = some data → data.scope = s →
      ∃ data, u.var? v = some data ∧ data.scope = s := by
    intro v data s found home
    obtain ⟨data', found', scope, -⟩ := kept v data found
    exact ⟨data', found', scope.trans home⟩
  refine ⟨views.1, views.2, ?_, ?_, ?_, ?_, ?_, ?_, ?_⟩
  · intro v data found
    rw [size_of_bare same]
    exact (known v data found).1
  · intro s name v found
    rcases named s name v found with before | new
    · obtain ⟨data, found', home⟩ := wf.named s name v before
      exact present found' home
    · exact new
  · intro s params v found mem
    rcases parameter s params v found mem with ⟨params', found', mem'⟩ | new
    · obtain ⟨data, before, home⟩ := wf.parameter s params' v found' mem'
      exact present before home
    · exact new
  · intro v data slot found captured
    obtain ⟨old, before, -, name, slot_eq⟩ := (known v data found).2 slot captured
    rw [owner before, (slots _).1, name]
    exact wf.slot_named v old slot before slot_eq
  · intro v w data data' slot found found' captured captured' owners
    obtain ⟨old, before, -, -, slot_eq⟩ := (known v data found).2 slot captured
    obtain ⟨old', before', -, -, slot_eq'⟩ := (known w data' found').2 slot captured'
    rw [owner before, owner before'] at owners
    exact wf.slot_unique v w old old' slot before before' slot_eq slot_eq' owners
  · intro s slot bound
    rw [(slots s).1] at bound
    obtain ⟨v, old, before, captured, owned⟩ := wf.slot_filled s slot bound
    obtain ⟨data, found, -, slot_eq⟩ := kept v old before
    exact ⟨v, data, found, slot_eq.trans captured, (owner before).trans owned⟩
  · intro s
    rw [(slots s).1, (slots s).2]
    exact wf.needed s

theorem WellFormed.pushVariable (wf : t.WellFormed) (inside : data.scope < t.scopes.size)
    (free : data.slot = none) : (t.pushVariable data).2.WellFormed := by
  refine wf.of_views rfl (fun _ => ⟨rfl, rfl⟩) (fun v old found => ?_)
    (fun v new found => ?_) (fun _ _ _ found => .inl found)
    (fun _ data _ found mem => .inl ⟨data, found, mem⟩)
  · exact ⟨old, var?_pushVariable_of_some data found, rfl, rfl⟩
  · rw [var?_pushVariable] at found
    split at found
    · cases found
      exact ⟨inside, fun slot captured => by rw [free] at captured; cases captured⟩
    · exact ⟨wf.owned v new found, fun slot captured => ⟨new, found, rfl, rfl, captured⟩⟩

theorem bare_setName (t : ScopeTree) (id : ScopeId) (name : String) (v : VariableId) :
    (t.setName id name v).scopes.map Scope.bare = t.scopes.map Scope.bare := by
  apply map_modifyScope
  exact fun _ => rfl

theorem variableScope?_setName (t : ScopeTree) (id s : ScopeId) (name : String)
    (v : VariableId) : (t.setName id name v).variableScope? s = t.variableScope? s :=
  variableScope?_modifyScope (by exact fun _ => rfl) t id s

theorem WellFormed.setName (wf : t.WellFormed)
    (present : t.var? v = some data) (home : data.scope = id) (name : String) :
    (t.setName id name v).WellFormed := by
  refine wf.of_views (bare_setName t id name v)
    (slots_modifyScope (by exact fun _ => rfl) t id) (fun _ old found => ⟨old, found, rfl, rfl⟩)
    (fun w old found => ⟨wf.owned w old found, fun slot captured =>
      ⟨old, found, rfl, rfl, captured⟩⟩)
    (fun s other w found => ?_) (fun s params w found mem => ?_)
  · rw [findLocal?_setName] at found
    split at found
    · rename_i here
      cases found
      exact .inr ⟨data, present, home.trans here.1⟩
    · exact .inl found
  · rw [variableScope?_setName] at found
    exact .inl ⟨params, found, mem⟩

theorem Extends.setName (t : ScopeTree) (id : ScopeId) (name : String) (v : VariableId) :
    t.Extends (t.setName id name v) := by
  refine ⟨bare_setName t id name v, rfl, fun s other bound => ?_, fun s data found => ?_⟩
  · unfold Bound
    rw [findLocal?_setName]
    split
    · exact ⟨v, rfl⟩
    · exact bound
  · exact ⟨data, (variableScope?_setName t id s name v).trans found, Nat.le_refl _⟩

theorem WellFormed.modifyVariable (wf : t.WellFormed) (v : VariableId) {f : Variable → Variable}
    (name : ∀ data, (f data).name = data.name) (scope : ∀ data, (f data).scope = data.scope)
    (slot : ∀ data, (f data).slot = data.slot) : (t.modifyVariable v f).WellFormed := by
  refine wf.of_views rfl (fun _ => ⟨rfl, rfl⟩) (fun w data found => ?_)
    (fun w data found => ?_) (fun _ _ _ found => .inl found)
    (fun _ data _ found mem => .inl ⟨data, found, mem⟩)
  · rw [var?_modifyVariable, found]
    split
    · exact ⟨f data, rfl, scope data, slot data⟩
    · exact ⟨data, rfl, rfl, rfl⟩
  · rw [var?_modifyVariable] at found
    split at found
    · obtain ⟨old, present, rfl⟩ := Option.map_eq_some_iff.mp found
      rw [scope, slot, name]
      exact ⟨wf.owned w old present, fun place captured => ⟨old, present, rfl, rfl, captured⟩⟩
    · exact ⟨wf.owned w data found, fun place captured => ⟨data, found, rfl, rfl, captured⟩⟩

theorem Extends.modifyVariable (t : ScopeTree) (v : VariableId) (f : Variable → Variable) :
    t.Extends (t.modifyVariable v f) :=
  ⟨rfl, rfl, fun _ _ h => h, fun _ data h => ⟨data, h, Nat.le_refl _⟩⟩

theorem Extends.pushVariable (t : ScopeTree) (data : Variable) :
    t.Extends (t.pushVariable data).2 :=
  ⟨rfl, rfl, fun _ _ h => h, fun _ data h => ⟨data, h, Nat.le_refl _⟩⟩

/-! ### Parameters -/

def pushParameter (t : ScopeTree) (id : ScopeId) (v : VariableId) : ScopeTree :=
  t.modifyVariableScope id fun data => { data with parameters := data.parameters ++ [v] }

theorem bare_pushParameter (t : ScopeTree) (id : ScopeId) (v : VariableId) :
    (t.pushParameter id v).scopes.map Scope.bare = t.scopes.map Scope.bare := by
  apply map_modifyScope
  intro scope
  cases h : scope.variableScope <;> simp [Scope.bare, h]

theorem variableScope?_pushParameter (t : ScopeTree) (id s : ScopeId) (v : VariableId) :
    (t.pushParameter id v).variableScope? s = (t.variableScope? s).map fun data =>
      if id = s then { data with parameters := data.parameters ++ [v] } else data := by
  unfold variableScope? pushParameter modifyVariableScope
  rw [scope?_modifyScope]
  split
  · cases t.scope? s <;> rfl
  · cases t.scope? s <;> simp

theorem length_pushParameter
    {data : VariableScope} (v : VariableId) (found : t.variableScope? id = some data) :
    ∃ data', (t.pushParameter id v).variableScope? id = some data' ∧
      data'.parameters.length = data.parameters.length + 1 := by
  refine ⟨{ data with parameters := data.parameters ++ [v] }, ?_, List.length_append⟩
  rw [variableScope?_pushParameter, found]
  simp

theorem findLocal?_pushParameter (t : ScopeTree) (id s : ScopeId) (v : VariableId)
    (name : String) : (t.pushParameter id v).findLocal? s name = t.findLocal? s name :=
  findLocal?_modifyScope (by exact fun _ => rfl) t id s name

theorem WellFormed.pushParameter (wf : t.WellFormed)
    (present : t.var? v = some data) (home : data.scope = id) :
    (t.pushParameter id v).WellFormed := by
  refine wf.of_views (bare_pushParameter t id v)
    (slots_modifyScope (by exact fun _ => rfl) t id) (fun _ old found => ⟨old, found, rfl, rfl⟩)
    (fun w old found => ⟨wf.owned w old found, fun slot captured =>
      ⟨old, found, rfl, rfl, captured⟩⟩)
    (fun s name w found => .inl ((findLocal?_pushParameter t id s v name).symm.trans found))
    (fun s params w found mem => ?_)
  rw [variableScope?_pushParameter] at found
  obtain ⟨old, before, rfl⟩ := Option.map_eq_some_iff.mp found
  split at mem
  · rename_i here
    rcases List.mem_append.mp mem with mem | mem
    · exact .inl ⟨old, before, mem⟩
    · obtain rfl := List.mem_singleton.mp mem
      exact .inr ⟨data, present, home.trans here⟩
  · exact .inl ⟨old, before, mem⟩

theorem Extends.pushParameter (t : ScopeTree) (id : ScopeId) (v : VariableId) :
    t.Extends (t.pushParameter id v) := by
  refine ⟨bare_pushParameter t id v, rfl, fun s name bound => ?_, fun s data found => ?_⟩
  · unfold Bound
    rw [findLocal?_pushParameter]
    exact bound
  · rw [variableScope?_pushParameter, found]
    refine ⟨_, rfl, ?_⟩
    split
    · simp
    · exact Nat.le_refl _

/-! ## Variables of a scope -/

/-- What a step gives that makes a variable for a name. -/
structure Binds (t u : ScopeTree) (s : ScopeId) (name : String) : Prop where
  wellFormed : u.WellFormed
  grown : t.Extends u
  bound : u.Bound s name

theorem binds_addHere (wf : t.WellFormed) (inside : id < t.scopes.size) (scopeKind : ScopeKind)
    (name : String) (kind : VarKind) (role : ModuleRole) :
    t.Binds (t.addHere id scopeKind name kind role).2 id name := by
  unfold addHere
  split
  · rename_i existing found
    exact ⟨wf, .refl t, existing, found⟩
  · let data : Variable :=
      { name, kind, storage := storageFor scopeKind kind role, scope := id
        startsInitialized := !kind.hasDeadZone }
    have present : (t.pushVariable data).2.var? t.vars.size = some data := by
      rw [var?_pushVariable, if_pos rfl]
    refine ⟨(wf.pushVariable inside rfl).setName present rfl name,
      (Extends.pushVariable t data).trans (.setName _ id name _), t.vars.size, ?_⟩
    show ((t.pushVariable data).2.setName id name t.vars.size).findLocal? id name = _
    rw [findLocal?_setName]
    exact if_pos ⟨rfl, rfl, inside⟩

theorem mem_ancestors_le (ordered : t.Ordered) {s r : Nat} (h : r ∈ t.ancestors s) : r ≤ s := by
  induction s using ancestry_induction ordered with
  | root s none =>
    rw [ancestors_of_root none, List.mem_singleton] at h
    exact Nat.le_of_eq h
  | step s p some ih =>
    rw [ancestors_of_parent ordered some, List.mem_cons] at h
    rcases h with rfl | h
    · exact Nat.le_refl _
    · exact Nat.le_trans (ih h) (Nat.le_of_lt (ordered s p some))

theorem nearest_le (ordered : t.Ordered) (p : ScopeId → Bool) (s : Nat) : t.nearest p s ≤ s := by
  unfold nearest
  cases found : (t.ancestors s).find? p with
  | none => exact Nat.zero_le s
  | some r => exact mem_ancestors_le ordered (List.mem_of_find?_eq_some found)

theorem nearest_of_self {p : ScopeId → Bool} (h : p s = true) : t.nearest p s = s := by
  rw [nearest, ancestors, ancestorsWithin_succ, List.find?_cons_of_pos h]
  rfl

theorem nearest_of_parent
    (ordered : t.Ordered) {p : ScopeId → Bool} {s r : ScopeId} (parent : t.parent? s = some r)
    (h : p s = false) : t.nearest p s = t.nearest p r := by
  rw [nearest, nearest, ancestors_of_parent ordered parent,
    List.find?_cons_of_neg (by simp [h])]

/-- The scope that gets the variable of a declaration: a `var` belongs to a variable scope. -/
def home (t : ScopeTree) (id : ScopeId) (kind : VarKind) : ScopeId :=
  if kind = .var then t.nearestVariableScope id else id

theorem binds_add (wf : t.WellFormed) (inside : id < t.scopes.size) (name : String)
    {kind : VarKind} (declared : kind ≠ .undeclared) (role : ModuleRole) :
    t.Binds (t.add id name kind role).2 (t.home id kind) name := by
  obtain ⟨scope, found⟩ := exists_scope? inside
  have here : t.isVariableScope id = true → t.home id kind = id := by
    intro isVariable
    unfold home
    split
    · exact nearest_of_self isVariable
    · rfl
  have kinds : t.isVariableScope id = scope.kind.isVariableScope := by
    simp [isVariableScope, kindIs, found]
  unfold add
  simp only [found, Option.map_some, Option.getD_some]
  cases h : scope.kind with
  | global | esModule =>
    rw [here (by rw [kinds, h]; rfl)]
    exact binds_addHere wf inside _ name kind role
  | function =>
    rw [here (by rw [kinds, h]; rfl)]
    simp only [declared, if_false]
    exact binds_addHere wf inside _ name kind role
  | block | loop =>
    unfold home
    simp only [declared, if_false]
    split
    · have outer : t.nearestVariableScope id < t.scopes.size :=
        Nat.lt_of_le_of_lt (nearest_le wf.ordered _ id) inside
      exact binds_addHere wf outer _ name kind role
    · exact binds_addHere wf inside _ name kind role

theorem addParameter_spec (wf : t.WellFormed) (inside : id < t.scopes.size) (name : String)
    (kind : VarKind) (isImplicit isVisible : Bool) :
    (t.addParameter id name kind isImplicit isVisible).2.WellFormed ∧
      t.Extends (t.addParameter id name kind isImplicit isVisible).2 ∧
      (isVisible = true → (t.addParameter id name kind isImplicit isVisible).2.Bound id name) ∧
      ∀ data, t.variableScope? id = some data →
        ∃ data', (t.addParameter id name kind isImplicit isVisible).2.variableScope? id =
          some data' ∧ data'.parameters.length = data.parameters.length + 1 := by
  let data : Variable :=
    { name, kind, storage := .local, scope := id, startsInitialized := true, isImplicit
      isParameter := true }
  have present : (t.pushVariable data).2.var? t.vars.size = some data := by
    rw [var?_pushVariable, if_pos rfl]
  have pushed : (t.pushVariable data).2.WellFormed := wf.pushVariable inside rfl
  have grown := Extends.pushVariable t data
  cases isVisible with
  | false =>
    have result : (t.addParameter id name kind isImplicit false).2 =
        (t.pushVariable data).2.pushParameter id t.vars.size := rfl
    rw [result]
    exact ⟨pushed.pushParameter present rfl, grown.trans (.pushParameter _ id _), nofun,
      fun before found => length_pushParameter _ found⟩
  | true =>
    have result : (t.addParameter id name kind isImplicit true).2 =
        ((t.pushVariable data).2.setName id name t.vars.size).pushParameter id t.vars.size := rfl
    rw [result]
    refine ⟨(pushed.setName present rfl name).pushParameter present rfl,
      (grown.trans (.setName _ id name _)).trans (.pushParameter _ id _), fun _ => ?_, ?_⟩
    · refine ⟨t.vars.size, ?_⟩
      rw [findLocal?_pushParameter, findLocal?_setName]
      exact if_pos ⟨rfl, rfl, inside⟩
    · intro before found
      exact length_pushParameter _ ((variableScope?_setName _ id id name _).trans found)

/-! ## Slots -/

/-- An environment gets one more slot. -/
def pushSlot (t : ScopeTree) (id : ScopeId) (name : String) : ScopeTree :=
  t.modifyScope id fun scope =>
    { scope with env := some ((scope.env.getD {}).push name) }

theorem bare_pushSlot (t : ScopeTree) (id : ScopeId) (name : String) :
    (t.pushSlot id name).scopes.map Scope.bare = t.scopes.map Scope.bare := by
  apply map_modifyScope
  exact fun _ => rfl

theorem slotNames_pushSlot (t : ScopeTree) (id s : ScopeId) (name : String) :
    (t.pushSlot id name).slotNames s =
      if id = s ∧ s < t.scopes.size then t.slotNames s ++ [name] else t.slotNames s := by
  unfold slotNames pushSlot
  rw [scope?_modifyScope]
  by_cases here : id = s
  · subst here
    rcases scope?_cases t id with ⟨found, outside⟩ | ⟨scope, found, inside⟩
    · simp [found, outside]
    · cases env : scope.env <;> simp [found, inside, env, LexicalEnv.push]
  · simp [here]

theorem needsEnv_pushSlot (t : ScopeTree) (id s : ScopeId) (name : String) :
    (t.pushSlot id name).needsEnv s =
      if id = s ∧ s < t.scopes.size then true else t.needsEnv s := by
  unfold needsEnv pushSlot
  rw [scope?_modifyScope]
  by_cases here : id = s
  · subst here
    rcases scope?_cases t id with ⟨found, outside⟩ | ⟨scope, found, inside⟩
    · simp [found, outside]
    · simp [found, inside, Scope.needsEnv, LexicalEnv.push]
  · simp [here]

end ScopeTree

end AccScript
