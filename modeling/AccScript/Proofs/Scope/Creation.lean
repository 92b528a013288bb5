import AccScript.Proofs.Scope.Resolution
import Mathlib.Data.List.Find

/-!
# Scope trees in the making

Scopes are made before there are variables.  Each is put below an earlier one and recorded for its
node, and declarations are added to it; kinds and parents do not change any more.  The tree that is
ready for its variables is well-formed, because nothing is bound or captured in it.
-/

namespace AccScript

variable {s : ScopeId} {node : NodeId} {t : ScopeTree}

/-! ## Scopes -/

namespace Scope

def hoisted (scope : Scope) : List Decl :=
  (scope.variableScope.map VariableScope.hoisted).getD []

def parameters (scope : Scope) : List VariableId :=
  (scope.variableScope.map VariableScope.parameters).getD []

/-- Declarations are added to a scope. -/
structure Grows (a b : Scope) : Prop where
  kind : b.kind = a.kind
  node : b.node = a.node
  parent : b.parent = a.parent
  decls : ∀ d ∈ a.decls, ∃ d' ∈ b.decls, d'.name = d.name ∧ d'.node = d.node ∧
    d'.kind = d.kind ∧ d'.isExpression = d.isExpression
  hoisted : ∀ d ∈ a.hoisted, ∃ d' ∈ b.hoisted, d'.name = d.name

theorem Grows.refl (a : Scope) : a.Grows a :=
  ⟨rfl, rfl, rfl, fun d mem => ⟨d, mem, rfl, rfl, rfl, rfl⟩, fun d mem => ⟨d, mem, rfl⟩⟩

theorem Grows.trans {a b c : Scope} (h : a.Grows b) (h' : b.Grows c) : a.Grows c := by
  refine ⟨h'.kind.trans h.kind, h'.node.trans h.node, h'.parent.trans h.parent, ?_, ?_⟩
  · intro d mem
    obtain ⟨d', mem', name, node, kind, expression⟩ := h.decls d mem
    obtain ⟨d'', mem'', name', node', kind', expression'⟩ := h'.decls d' mem'
    exact ⟨d'', mem'', name'.trans name, node'.trans node, kind'.trans kind,
      expression'.trans expression⟩
  · intro d mem
    obtain ⟨d', mem', name⟩ := h.hoisted d mem
    obtain ⟨d'', mem'', name'⟩ := h'.hoisted d' mem'
    exact ⟨d'', mem'', name'.trans name⟩

/-- A scope without variables. -/
structure Blank (scope : Scope) : Prop where
  names : scope.names = []
  env : scope.env.getD {} = {}
  parameters : scope.parameters = []
  isVariable : scope.variableScope.isSome = scope.kind.isVariableScope

/-- Declarations are added to a scope, and nothing else that matters is changed. -/
structure Keeps (a b : Scope) : Prop extends Grows a b where
  names : b.names = a.names
  env : b.env = a.env
  parameters : b.parameters = a.parameters
  isVariable : b.variableScope.isSome = a.variableScope.isSome

theorem Keeps.refl (a : Scope) : a.Keeps a :=
  ⟨.refl a, rfl, rfl, rfl, rfl⟩

theorem Keeps.blank {a b : Scope} (h : a.Keeps b) (blank : a.Blank) : b.Blank := by
  refine ⟨h.names.trans blank.names, ?_, h.parameters.trans blank.parameters, ?_⟩
  · rw [h.env]
    exact blank.env
  · rw [h.kind, h.isVariable]
    exact blank.isVariable

end Scope

/-! ## Scope trees -/

namespace ScopeTree

variable {t u : ScopeTree}

/-- A tree in the making: the root is a script or a module, every other scope has been put below an
earlier one, each is recorded for its node, and there are no variables yet. -/
structure Raw (t : ScopeTree) : Prop where
  vars : t.vars = #[]
  root : t.isTop rootId = true ∧ t.parent? rootId = none
  below : ∀ s scope, t.scope? s = some scope → s ≠ rootId →
    ∃ p : Nat, scope.parent = some p ∧ p < s
  blank : ∀ s scope, t.scope? s = some scope → scope.Blank
  recorded : ∀ s scope, t.scope? s = some scope → (scope.node, s) ∈ t.nodeScopes
  owned : ∀ node s, (node, s) ∈ t.nodeScopes →
    ∃ scope, t.scope? s = some scope ∧ scope.node = node
  distinct : (t.nodeScopes.map Prod.fst).Nodup

/-- All scopes are there, with the same kinds and parents. -/
def Within (t u : ScopeTree) : Prop :=
  ∀ s scope, t.scope? s = some scope →
    ∃ scope', u.scope? s = some scope' ∧ scope'.kind = scope.kind ∧ scope'.node = scope.node ∧
      scope'.parent = scope.parent

theorem Within.parent? (h : t.Within u) (inside : s < t.scopes.size) :
    u.parent? s = t.parent? s := by
  obtain ⟨scope, found⟩ := exists_scope? inside
  obtain ⟨scope', found', -, -, parent⟩ := h s scope found
  rw [ScopeTree.parent?, ScopeTree.parent?, found, found']
  exact parent

theorem Within.kindIs (h : t.Within u) (inside : s < t.scopes.size)
    (p : ScopeKind → Bool) : u.kindIs p s = t.kindIs p s := by
  obtain ⟨scope, found⟩ := exists_scope? inside
  obtain ⟨scope', found', kind, -, -⟩ := h s scope found
  simp [ScopeTree.kindIs, found, found', kind]

theorem Within.ancestors (h : t.Within u) (before : t.Ordered) (after : u.Ordered) {s : Nat}
    (inside : s < t.scopes.size) : u.ancestors s = t.ancestors s := by
  induction s using ancestry_induction before with
  | root s none =>
    rw [ancestors_of_root none, ancestors_of_root ((h.parent? inside).trans none)]
  | step s p some ih =>
    rw [ancestors_of_parent before some, ancestors_of_parent after ((h.parent? inside).trans some),
      ih (Nat.lt_trans (before s p some) inside)]

theorem Within.nearestVariableScope
    (h : t.Within u) (before : t.Ordered) (after : u.Ordered) {s : Nat}
    (inside : s < t.scopes.size) : u.nearestVariableScope s = t.nearestVariableScope s := by
  have same : (t.ancestors s).find? u.isVariableScope =
      (t.ancestors s).find? t.isVariableScope := by
    refine List.find?_congr fun r mem => ?_
    exact h.kindIs (Nat.lt_of_le_of_lt (mem_ancestors_le before mem) inside) _
  rw [ScopeTree.nearestVariableScope, ScopeTree.nearestVariableScope, nearest, nearest,
    h.ancestors before after inside, same]

theorem Raw.ordered (raw : t.Raw) : t.Ordered := by
  intro s p parent
  cases found : t.scope? s with
  | none => simp [parent?, found] at parent
  | some scope =>
    by_cases root : s = rootId
    · rw [root, raw.root.2] at parent
      cases parent
    · obtain ⟨q, own, before⟩ := raw.below s scope found root
      rw [parent?, found] at parent
      obtain rfl : q = p := Option.some.inj (own.symm.trans parent)
      exact before

theorem Raw.rootId_lt (raw : t.Raw) : rootId < t.scopes.size :=
  lt_size_of_kindIs raw.root.1

theorem Raw.eq_root (raw : t.Raw) {s : Nat} (inside : s < t.scopes.size)
    (top : t.parent? s = none) : s = rootId := by
  by_contra other
  obtain ⟨scope, found⟩ := exists_scope? inside
  obtain ⟨p, parent, -⟩ := raw.below s scope found other
  rw [parent?, found] at top
  exact Option.some_ne_none p (parent.symm.trans top)

theorem Raw.scopeOfNode? (raw : t.Raw)
    (h : (node, s) ∈ t.nodeScopes) : t.scopeOfNode? node = some s := by
  have all : ∀ entries : List (NodeId × ScopeId), (entries.map Prod.fst).Nodup →
      (node, s) ∈ entries → entries.lookup node = some s := by
    intro entries
    induction entries with
    | nil => exact fun _ mem => absurd mem List.not_mem_nil
    | cons entry rest ih =>
      intro distinct mem
      rw [List.map_cons, List.nodup_cons] at distinct
      rw [List.lookup_cons]
      rcases List.mem_cons.mp mem with rfl | mem
      · simp
      · have different : node ≠ entry.1 := by
          rintro rfl
          exact distinct.1 (List.mem_map.mpr ⟨_, mem, rfl⟩)
        rw [beq_false_of_ne different]
        exact ih distinct.2 mem
  exact all t.nodeScopes raw.distinct h

theorem mem_of_scopeOfNode? (h : t.scopeOfNode? node = some s) : (node, s) ∈ t.nodeScopes := by
  obtain ⟨first, second, same, -⟩ := List.lookup_eq_some_iff.mp h
  rw [same]
  exact List.mem_append_right _ (.head _)

theorem Raw.unique
    (raw : t.Raw) {s s' : ScopeId} {scope scope' : Scope} (found : t.scope? s = some scope)
    (found' : t.scope? s' = some scope') (same : scope.node = scope'.node) : s = s' := by
  have first := raw.scopeOfNode? (raw.recorded s scope found)
  have second := raw.scopeOfNode? (raw.recorded s' scope' found')
  rw [same] at first
  exact Option.some.inj (first.symm.trans second)

/-- There is nothing in the tree that could be wrong. -/
theorem Raw.rooted (raw : t.Raw) : t.Rooted := by
  have novar : ∀ v, t.var? v = none := by
    intro v
    rw [var?, raw.vars]
    rfl
  have noname : ∀ s name, t.findLocal? s name = none := by
    intro s name
    rw [findLocal?]
    cases found : t.scope? s with
    | none => rfl
    | some scope =>
      rw [Option.bind_some, (raw.blank s scope found).names]
      rfl
  have noslot : ∀ s, t.slotNames s = [] ∧ t.needsEnv s = false := by
    intro s
    rw [slotNames, needsEnv]
    cases found : t.scope? s with
    | none => exact ⟨rfl, rfl⟩
    | some scope =>
      have env := (raw.blank s scope found).env
      cases own : scope.env with
      | none => simp [own, Scope.needsEnv]
      | some data =>
        rw [own] at env
        cases env
        simp [own, Scope.needsEnv]
  refine ⟨⟨raw.ordered, fun s inside top => ?_, ?_, ?_, ?_, ?_, ?_, ?_, ?_⟩, raw.root.1⟩
  · rw [raw.eq_root inside top]
    have top := raw.root.1
    unfold isTop isLexical kindIs at *
    cases found : t.scope? rootId with
    | none => simp [found] at top
    | some scope => cases kind : scope.kind <;> simp_all [ScopeKind.isLexical]
  · intro v data found
    rw [novar] at found
    cases found
  · intro s name v found
    rw [noname] at found
    cases found
  · intro s data v found mem
    obtain ⟨scope, here, own⟩ := Option.bind_eq_some_iff.mp found
    have none := (raw.blank s scope here).parameters
    rw [Scope.parameters, own] at none
    rw [show data.parameters = [] from none] at mem
    cases mem
  · intro v data slot found
    rw [novar] at found
    cases found
  · intro v w data data' slot found
    rw [novar] at found
    cases found
  · intro s slot bound
    rw [(noslot s).1] at bound
    cases bound
  · intro s
    rw [(noslot s).1, (noslot s).2]
    simp

end ScopeTree

/-! ## New scopes -/

def Scope.childless (scope : Scope) : Scope :=
  { scope with
    children := []
    variableScope := scope.variableScope.map fun data => { data with children := [] } }

/-- Children change nothing else. -/
structure Scope.Alike (a b : Scope) : Prop extends a.Keeps b where
  isArrow : b.isArrowFunction = a.isArrowFunction
  sameDecls : b.decls = a.decls
  sameHoisted : b.hoisted = a.hoisted

theorem Scope.alike_of_childless {a b : Scope} (h : b.childless = a.childless) : a.Alike b := by
  have hoisted : ∀ scope : Scope, scope.childless.hoisted = scope.hoisted := by
    intro scope
    cases data : scope.variableScope <;> simp [Scope.hoisted, childless, data]
  have parameters : ∀ scope : Scope, scope.childless.parameters = scope.parameters := by
    intro scope
    cases data : scope.variableScope <;> simp [Scope.parameters, childless, data]
  have arrow : ∀ scope : Scope, scope.childless.isArrowFunction = scope.isArrowFunction := by
    intro scope
    cases data : scope.variableScope <;> simp [isArrowFunction, childless, data]
  have isVariable : ∀ scope : Scope,
      scope.childless.variableScope.isSome = scope.variableScope.isSome :=
    fun scope => Option.isSome_map
  have sameDecls : b.decls = a.decls := by
    have := congrArg Scope.decls h
    exact this
  have sameHoisted : b.hoisted = a.hoisted := by
    rw [← hoisted a, ← hoisted b, h]
  constructor
  · constructor
    · constructor
      · have := congrArg Scope.kind h
        exact this
      · have := congrArg Scope.node h
        exact this
      · have := congrArg Scope.parent h
        exact this
      · intro d mem
        exact ⟨d, sameDecls ▸ mem, rfl, rfl, rfl, rfl⟩
      · intro d mem
        exact ⟨d, sameHoisted ▸ mem, rfl⟩
    · have := congrArg Scope.names h
      exact this
    · have := congrArg Scope.env h
      exact this
    · rw [← parameters a, ← parameters b, h]
    · rw [← isVariable a, ← isVariable b, h]
  · rw [← arrow a, ← arrow b, h]
  · exact sameDecls
  · exact sameHoisted

namespace ScopeTree

variable {t : ScopeTree}

theorem childless_addScope (t : ScopeTree) (kind : ScopeKind) (node : NodeId) (parent : ScopeId) :
    (t.addScope kind node (some parent)).scopes.map Scope.childless =
      (t.scopes.map Scope.childless).push (t.freshScope kind node (some parent)).childless := by
  let inner : ScopeTree := (t.outerVariableScope? kind (some parent)).elim t fun outer =>
    t.modifyVariableScope outer fun data =>
      { data with children := data.children ++ [t.scopes.size] }
  have outer : inner.scopes.map Scope.childless = t.scopes.map Scope.childless := by
    unfold inner
    cases t.outerVariableScope? kind (some parent) with
    | none => rfl
    | some outer =>
      apply map_modifyScope
      intro scope
      cases data : scope.variableScope <;> simp [Scope.childless, data]
  have step : (t.addScope kind node (some parent)).scopes =
      (modifyScope { inner with scopes := inner.scopes.push (t.freshScope kind node (some parent)) }
        parent fun scope => { scope with children := scope.children ++ [t.scopes.size] }).scopes := by
    unfold inner addScope
    cases t.outerVariableScope? kind (some parent) <;> rfl
  rw [step, map_modifyScope (by exact fun _ => rfl), Array.map_push, outer]

theorem nodeScopes_addScope (t : ScopeTree) (kind : ScopeKind) (node : NodeId)
    (parent : Option ScopeId) :
    (t.addScope kind node parent).nodeScopes = (node, t.scopes.size) :: t.nodeScopes := by
  unfold addScope
  cases t.outerVariableScope? kind parent <;> cases parent <;> rfl

theorem size_addScope (t : ScopeTree) (kind : ScopeKind) (node : NodeId) (parent : ScopeId) :
    (t.addScope kind node (some parent)).scopes.size = t.scopes.size + 1 := by
  have sizes := congrArg Array.size (childless_addScope t kind node parent)
  rwa [Array.size_map, Array.size_push, Array.size_map] at sizes

theorem scope?_addScope (t : ScopeTree) (kind : ScopeKind) (node : NodeId) (parent : ScopeId)
    (s : ScopeId) :
    ((t.addScope kind node (some parent)).scope? s).map Scope.childless =
      if s = t.scopes.size then some (t.freshScope kind node (some parent)).childless
      else (t.scope? s).map Scope.childless := by
  unfold scope?
  rw [← Array.getElem?_map, childless_addScope, Array.getElem?_push, Array.size_map,
    Array.getElem?_map]

theorem addScope_back {kind : ScopeKind} {parent s : ScopeId} {scope' : Scope}
    (found : (t.addScope kind node (some parent)).scope? s = some scope') :
    (s = t.scopes.size ∧ (t.freshScope kind node (some parent)).Alike scope') ∨
      ∃ scope, t.scope? s = some scope ∧ scope.Alike scope' := by
  have view := scope?_addScope t kind node parent s
  rw [found, Option.map_some] at view
  split at view
  · rename_i new
    exact .inl ⟨new, Scope.alike_of_childless (Option.some.inj view)⟩
  · obtain ⟨scope, old, same⟩ := Option.map_eq_some_iff.mp view.symm
    exact .inr ⟨scope, old, Scope.alike_of_childless same.symm⟩

theorem addScope_forth {scope : Scope} (kind : ScopeKind) (node : NodeId)
    (parent : ScopeId) (found : t.scope? s = some scope) :
    ∃ scope', (t.addScope kind node (some parent)).scope? s = some scope' ∧
      scope.Alike scope' := by
  have view := scope?_addScope t kind node parent s
  have old : s ≠ t.scopes.size := Nat.ne_of_lt (lt_size_of_scope? found)
  rw [if_neg old, found, Option.map_some] at view
  obtain ⟨scope', found', same⟩ := Option.map_eq_some_iff.mp view
  exact ⟨scope', found', Scope.alike_of_childless same⟩

theorem within_addScope (t : ScopeTree) (kind : ScopeKind) (node : NodeId) (parent : ScopeId) :
    t.Within (t.addScope kind node (some parent)) := by
  intro s scope found
  obtain ⟨scope', found', alike⟩ := addScope_forth kind node parent found
  exact ⟨scope', found', alike.kind, alike.node, alike.parent⟩

theorem addScope_new (t : ScopeTree) (kind : ScopeKind) (node : NodeId) (parent : ScopeId) :
    ∃ scope, (t.addScope kind node (some parent)).scope? t.scopes.size = some scope ∧
      (t.freshScope kind node (some parent)).Alike scope := by
  have view := scope?_addScope t kind node parent t.scopes.size
  rw [if_pos rfl] at view
  obtain ⟨scope, found, same⟩ := Option.map_eq_some_iff.mp view
  exact ⟨scope, found, Scope.alike_of_childless same⟩

theorem hoisted_freshScope (t : ScopeTree) (kind : ScopeKind) (node : NodeId)
    (parent : Option ScopeId) : (t.freshScope kind node parent).hoisted = [] := by
  cases kind <;> rfl

theorem blank_freshScope (t : ScopeTree) (kind : ScopeKind) (node : NodeId)
    (parent : Option ScopeId) : (t.freshScope kind node parent).Blank := by
  refine ⟨rfl, ?_, ?_, ?_⟩
  · cases kind <;> rfl
  · cases kind <;> rfl
  · cases kind <;> rfl

theorem Raw.addScope (raw : t.Raw) (kind : ScopeKind) {parent : ScopeId}
    (inside : parent < t.scopes.size) (free : ∀ s, (node, s) ∉ t.nodeScopes) :
    (t.addScope kind node (some parent)).Raw := by
  have within := within_addScope t kind node parent
  have root := raw.rootId_lt
  have nodes := nodeScopes_addScope t kind node (some parent)
  refine ⟨?_, ⟨?_, ?_⟩, ?_, ?_, ?_, ?_, ?_⟩
  · unfold ScopeTree.addScope
    cases t.outerVariableScope? kind (some parent) <;> exact raw.vars
  · rw [isTop, within.kindIs root]
    exact raw.root.1
  · rw [within.parent? root]
    exact raw.root.2
  · intro s scope' found other
    rcases addScope_back found with ⟨rfl, alike⟩ | ⟨scope, found', alike⟩
    · exact ⟨parent, alike.parent, inside⟩
    · rw [alike.parent]
      exact raw.below s scope found' other
  · intro s scope' found
    rcases addScope_back found with ⟨rfl, alike⟩ | ⟨scope, found', alike⟩
    · exact alike.blank (blank_freshScope t kind node _)
    · exact alike.blank (raw.blank s scope found')
  · intro s scope' found
    rw [nodes]
    rcases addScope_back found with ⟨rfl, alike⟩ | ⟨scope, found', alike⟩
    · rw [alike.node]
      exact .head _
    · rw [alike.node]
      exact .tail _ (raw.recorded s scope found')
  · intro other s mem
    rw [nodes] at mem
    rcases List.mem_cons.mp mem with same | mem
    · cases same
      obtain ⟨scope, found, alike⟩ := addScope_new t kind node parent
      exact ⟨scope, found, alike.node⟩
    · obtain ⟨scope, found, own⟩ := raw.owned other s mem
      obtain ⟨scope', found', alike⟩ := addScope_forth kind node parent found
      exact ⟨scope', found', alike.node.trans own⟩
  · rw [nodes, List.map_cons, List.nodup_cons]
    refine ⟨fun mem => ?_, raw.distinct⟩
    obtain ⟨⟨_, s⟩, mem, same⟩ := List.mem_map.mp mem
    cases same
    exact free s mem

/-- The tree of a script or a module before anything is put into it. -/
theorem raw_ofRoot
    {kind : ScopeKind} (top : (kind = .global || kind = .esModule) = true) (node : NodeId) :
    (ofRoot kind node).Raw := by
  have only : (ofRoot kind node).scopes = #[freshScope {} kind node none] := by
    cases kind <;> rfl
  have nodes : (ofRoot kind node).nodeScopes = [(node, rootId)] := by
    cases kind <;> rfl
  have scope_cases : ∀ s scope, (ofRoot kind node).scope? s = some scope →
      s = rootId ∧ scope = freshScope {} kind node none := by
    intro s scope found
    rw [scope?, only] at found
    cases s with
    | zero => exact ⟨rfl, (Option.some.inj found).symm⟩
    | succ s => simp at found
  have root : (ofRoot kind node).scope? rootId = some (freshScope {} kind node none) := by
    rw [scope?, only]
    rfl
  refine ⟨by cases kind <;> rfl, ⟨?_, ?_⟩, ?_, ?_, ?_, ?_, ?_⟩
  · rw [isTop, kindIs, root]
    exact top
  · rw [parent?, root]
    rfl
  · intro s scope found other
    exact absurd (scope_cases s scope found).1 other
  · intro s scope found
    rw [(scope_cases s scope found).2]
    exact blank_freshScope {} kind node none
  · intro s scope found
    obtain ⟨rfl, rfl⟩ := scope_cases s scope found
    rw [nodes]
    exact List.mem_singleton.mpr rfl
  · intro other s mem
    rw [nodes] at mem
    cases List.mem_singleton.mp mem
    exact ⟨_, root, rfl⟩
  · rw [nodes]
    simp

end ScopeTree

end AccScript
