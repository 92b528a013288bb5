import AccScript.Proofs.Survey.Growth

/-!
# What the walk records

The ways in which a survey changes, one after another: something is noted that scopes do not depend
on, a name is used, a declaration is added to a scope, a scope is put below another one, a function
is registered.  Each is an advance in the sense of `Survey.Advances`.
-/

namespace AccScript

variable {node : NodeId}

/-! ## Hoisted declarations -/

namespace ScopeTree

theorem exists_mem_insertHoisted (hoisted : List Decl) (decl : Decl) :
    ∃ d ∈ insertHoisted hoisted decl, d.name = decl.name := by
  induction hoisted with
  | nil => exact ⟨decl, List.mem_singleton_self _, rfl⟩
  | cons other rest ih =>
    rw [insertHoisted]
    split
    · rename_i same
      refine ⟨_, .head _, ?_⟩
      split
      · rfl
      · exact same
    · obtain ⟨d, mem, name⟩ := ih
      exact ⟨d, .tail _ mem, name⟩

theorem insertHoisted_keeps {hoisted : List Decl} {d : Decl} (decl : Decl) (h : d ∈ hoisted) :
    ∃ d' ∈ insertHoisted hoisted decl, d'.name = d.name := by
  induction hoisted with
  | nil => cases h
  | cons other rest ih =>
    rw [insertHoisted]
    split
    · rename_i same
      rcases List.mem_cons.mp h with rfl | h
      · refine ⟨_, .head _, ?_⟩
        split
        · exact same.symm
        · rfl
      · exact ⟨d, .tail _ h, rfl⟩
    · rcases List.mem_cons.mp h with rfl | h
      · exact ⟨d, .head _, rfl⟩
      · obtain ⟨d', mem, name⟩ := ih h
        exact ⟨d', .tail _ mem, name⟩

theorem mem_insertHoisted {hoisted : List Decl} {d decl : Decl}
    (h : d ∈ insertHoisted hoisted decl) : d ∈ hoisted ∨ d = decl := by
  induction hoisted with
  | nil => exact .inr (List.mem_singleton.mp h)
  | cons other rest ih =>
    rw [insertHoisted] at h
    split at h
    · rcases List.mem_cons.mp h with rfl | h
      · split
        · exact .inr rfl
        · exact .inl (.head _)
      · exact .inl (.tail _ h)
    · rcases List.mem_cons.mp h with rfl | h
      · exact .inl (.head _)
      · rcases ih h with h | h
        · exact .inl (.tail _ h)
        · exact .inr h

end ScopeTree

namespace Survey

variable {p : Program} {σ τ : Survey}

/-! ## Notes -/

theorem Advances.note (tidy : σ.Tidy p) (moduleRecord : Option ModuleRecord)
    (defaultConstructors : OrderedMap NodeId DefaultConstructor)
    (classBindings : OrderedMap ScopeId String) (derivedClasses : List NodeId)
    (pendingExports : List (String × String)) :
    σ.Advances p []
      { σ with
        moduleRecord, defaultConstructors, classBindings, derivedClasses, pendingExports } :=
  ⟨{ Le.refl σ with }, { tidy with }, fun _ recorded => .inl recorded⟩

theorem Advances.refer (tidy : σ.Tidy p) (reference : Reference) :
    σ.Advances p [] { σ with references := σ.references.push reference } :=
  ⟨{ Le.refl σ with references := fun _ mem => Array.mem_push_of_mem _ mem }, { tidy with },
    fun _ recorded => .inl recorded⟩

theorem Advances.construct (tidy : σ.Tidy p) (recorded : σ.Records node)
    (free : σ.classConstructors.get? node = none) (f : NodeId) :
    σ.Advances p []
      { σ with classConstructors := σ.classConstructors.insert node f } := by
  refine ⟨{ Le.refl σ with constructors := fun other g found =>
      OrderedMap.get?_insert_of_some free found },
    { tidy with constructors := fun other g found => ?_ }, fun _ recorded => .inl recorded⟩
  simp only [OrderedMap.get?_insert] at found
  split at found
  · rename_i same
    rw [same]
    exact recorded
  · exact tidy.constructors other g found

theorem Advances.bindKey (tidy : σ.Tidy p) {member : NodeId}
    (known : ∃ node ∈ p.nodes, node.id = member ∧ node.name = SourceNode.fieldKey member) :
    σ.Advances p []
      { σ with
        computedFieldKeys :=
          σ.computedFieldKeys.insert member (SourceNode.fieldKey member) } := by
  refine ⟨{ Le.refl σ with fieldKeys := fun other name found => ?_ },
    { tidy with fieldKeys := fun other name found => ?_ }, fun _ recorded => .inl recorded⟩
  · simp only [OrderedMap.get?_insert]
    split
    · rename_i same
      rw [← same, (tidy.fieldKeys other name found).1]
    · exact found
  · simp only [OrderedMap.get?_insert] at found
    split at found
    · rename_i same
      cases found
      rw [same]
      exact ⟨rfl, known⟩
    · exact tidy.fieldKeys other name found

theorem Advances.skipNode (tidy : σ.Tidy p) :
    σ.Advances p [] { σ with nextNodeId := σ.nextNodeId + 1 } :=
  ⟨{ Le.refl σ with nextNodeId := Nat.le_succ _ },
    { tidy with
      nextNodeId := Nat.le_succ_of_le tidy.nextNodeId
      below := fun n recorded => Nat.lt_succ_of_lt (tidy.below n recorded) },
    fun _ recorded => .inl recorded⟩

/-! ## Functions -/

/-- A node has its scope, and nothing else is known about it. -/
structure Opened (σ : Survey) (node : NodeId) (kind : ScopeKind) (outer inner : ScopeId)
    (isArrow : Bool) : Prop where
  scope : ∃ scope, σ.tree.scope? inner = some scope ∧ scope.node = node ∧ scope.kind = kind ∧
    scope.parent = some outer ∧ scope.isArrowFunction = isArrow
  unregistered : σ.functions.get? node = none
  unowned : σ.classConstructors.get? node = none

theorem get?_countName (counts : NameMap Nat) {name : String} (named : name ≠ "") (other : String) :
    (countName counts name).get? other =
      if other = name then some ((counts.get? name).getD 0 + 1) else counts.get? other := by
  have present : name.isEmpty = false := by simpa using named
  rw [countName, present]
  exact OrderedMap.get?_insert counts name other _

theorem counted_register {facts : FunctionFacts} (h : σ.Counts) : (σ.register node facts).Counts := by
  have back : ∀ other new, (σ.register node facts).functions.get? other = some new →
      other = node ∧ new = { facts with sequence := σ.functionOrder.size + 1 } ∨
        other ≠ node ∧ σ.functions.get? other = some new := by
    intro other new registered
    simp only [register, OrderedMap.get?_insert] at registered
    split at registered
    · cases registered
      exact .inl ⟨‹_›, rfl⟩
    · exact .inr ⟨‹_›, registered⟩
  -- the count of a name is never lowered, and that of the new name is raised
  have raised : ∀ name, name ≠ "" → name = facts.name →
      ((σ.register node facts).nameCounts).get? name =
        some ((σ.nameCounts.get? name).getD 0 + 1) := by
    rintro name named rfl
    rw [register, get?_countName _ named, if_pos rfl]
  have kept : ∀ name, name ≠ facts.name →
      ((σ.register node facts).nameCounts).get? name = σ.nameCounts.get? name := by
    intro name different
    by_cases named : facts.name = ""
    · simp [register, countName, named]
    · rw [register, get?_countName _ named, if_neg different]
  refine ⟨fun other new registered => ?_, fun other new registered named => ?_,
    fun a new b new' first second named same once => ?_⟩
  · rcases back other new registered with ⟨rfl, rfl⟩ | ⟨-, old⟩
    · exact ⟨Nat.succ_pos _, by simp [register]⟩
    · obtain ⟨positive, place⟩ := h.sequence other new old
      obtain ⟨inside, here⟩ := Array.getElem?_eq_some_iff.mp place
      refine ⟨positive, ?_⟩
      rw [register, Array.getElem?_push_lt inside, here]
  · by_cases same : new.name = facts.name
    · exact ⟨_, raised _ named same, Nat.succ_pos _⟩
    · rw [kept _ same]
      rcases back other new registered with ⟨rfl, rfl⟩ | ⟨-, old⟩
      · exact absurd rfl same
      · exact h.counted other new old named
  · -- a function with the new name was counted before
    have alone : ∀ other old, σ.functions.get? other = some old → old.name ≠ "" →
        old.name = facts.name →
        (σ.register node facts).nameCounts.get? old.name ≠ some 1 := by
      intro other old found named same once
      obtain ⟨count, counted, positive⟩ := h.counted other old found named
      rw [raised _ named same, counted] at once
      simp only [Option.getD_some, Option.some.injEq] at once
      omega
    rcases back a new first with ⟨rfl, rfl⟩ | ⟨-, old⟩ <;>
      rcases back b new' second with ⟨rfl, rfl⟩ | ⟨-, old'⟩
    · rfl
    · exact absurd (same ▸ once) (alone b new' old' (same ▸ named) same.symm)
    · exact absurd once (alone a new old named same)
    · by_cases fresh : new.name = facts.name
      · exact absurd once (alone a new old named fresh)
      · rw [kept _ fresh] at once
        exact h.shared a new b new' old old' named same once

theorem Advances.register (tidy : σ.Tidy p) {outer inner : ScopeId} {facts : FunctionFacts}
    (opened : σ.Opened node .function outer inner facts.kind.isArrow) (coherent : facts.Coherent) :
    σ.Advances p [] (σ.register node facts) := by
  obtain ⟨scope, found, own, kind, parent, arrow⟩ := opened.scope
  have free := opened.unregistered
  -- the root is below no other scope, so the function is not the program
  have apart : node ≠ p.id := by
    rintro rfl
    obtain ⟨root, found', own'⟩ := tidy.raw.owned _ _ tidy.main
    obtain rfl := tidy.raw.unique found found' (own.trans own'.symm)
    have top := tidy.raw.root.2
    rw [ScopeTree.parent?, found] at top
    exact Option.some_ne_none outer (parent.symm.trans top)
  refine ⟨{ Le.refl σ with functions := fun other old registered =>
      ⟨old, OrderedMap.get?_insert_of_some free registered, .refl old⟩ },
    { tidy with
      functions := fun other new registered => ?_
      counted := counted_register tidy.counted
      arrows := fun s scope' new found' kind' registered => ?_ },
    fun _ recorded => .inl recorded⟩
  · simp only [Survey.register, OrderedMap.get?_insert] at registered
    split at registered
    · rename_i same
      cases registered
      subst same
      exact ⟨⟨inner, own ▸ tidy.raw.recorded inner scope found⟩, apart, coherent⟩
    · exact tidy.functions other new registered
  · simp only [Survey.register, OrderedMap.get?_insert] at registered
    split at registered
    · rename_i same
      cases registered
      have found' : σ.tree.scope? s = some scope' := found'
      obtain rfl := tidy.raw.unique found' found (same.trans own.symm)
      rw [found] at found'
      cases found'
      exact arrow
    · exact tidy.arrows s scope' new found' kind' registered

section Refine

variable {f : FunctionFacts → FunctionFacts} (same : ∀ facts : FunctionFacts, facts.Same (f facts))

include same

theorem exists_same {functions : OrderedMap NodeId FunctionFacts} {node other : NodeId}
    {new : FunctionFacts} (registered : (functions.modify node f).get? other = some new) :
    ∃ old, functions.get? other = some old ∧ old.Same new := by
  rw [OrderedMap.get?_modify] at registered
  obtain ⟨old, found, rfl⟩ := Option.map_eq_some_iff.mp registered
  refine ⟨old, found, ?_⟩
  split
  · exact same old
  · exact .refl old

theorem counted_refine (h : σ.Counts) (node : NodeId) :
    Counts { σ with functions := σ.functions.modify node f } := by
  refine ⟨fun other new registered => ?_, fun other new registered => ?_,
    fun a new b new' first second => ?_⟩
  · obtain ⟨old, found, same⟩ := exists_same same registered
    rw [same.sequence]
    exact h.sequence other old found
  · obtain ⟨old, found, same⟩ := exists_same same registered
    rw [same.name]
    exact h.counted other old found
  · obtain ⟨old, found, same₁⟩ := exists_same same first
    obtain ⟨old', found', same₂⟩ := exists_same same second
    rw [same₁.name, same₂.name]
    exact h.shared a old b old' found found'

/-- What is found out later about a function leaves its parameters alone. -/
theorem Advances.refine (tidy : σ.Tidy p) (node : NodeId) :
    σ.Advances p [] { σ with functions := σ.functions.modify node f } := by
  refine ⟨{ Le.refl σ with functions := fun other old registered => ?_ },
    { tidy with
      functions := fun other new registered => ?_
      counted := counted_refine same tidy.counted node
      arrows := fun s scope new found kind registered => ?_ },
    fun _ recorded => .inl recorded⟩
  · rw [OrderedMap.get?_modify, registered]
    refine ⟨_, rfl, ?_⟩
    split
    · exact same old
    · exact .refl old
  · obtain ⟨old, found, same⟩ := exists_same same registered
    obtain ⟨recorded, apart, coherent⟩ := tidy.functions other old found
    refine ⟨recorded, apart, ?_⟩
    unfold FunctionFacts.Coherent
    rw [same.parameters, same.parameterNames]
    exact coherent
  · obtain ⟨old, found', same⟩ := exists_same same registered
    rw [same.kind]
    exact tidy.arrows s scope old found kind found'

end Refine

/-! ## Declarations -/

/-- A scope gets declarations of nodes of the program. -/
structure Enriches (p : Program) (a b : Scope) : Prop extends a.Keeps b where
  newDecls : ∀ d ∈ b.decls, d ∈ a.decls ∨
    Declares p (fun isClass => d.kind = .cls → isClass = true) d
  newHoisted : ∀ d ∈ b.hoisted, d ∈ a.hoisted ∨ Declares p (· = false) d

theorem Advances.mark (tidy : σ.Tidy p) (id : ScopeId) {f : Scope → Scope}
    (enriches : ∀ scope, σ.tree.scope? id = some scope → Enriches p scope (f scope))
    (arrow : ∀ scope, σ.tree.scope? id = some scope → σ.functions.get? scope.node ≠ none →
      (f scope).isArrowFunction = scope.isArrowFunction) :
    σ.Advances p [] { σ with tree := σ.tree.modifyScope id f } := by
  have view := fun s => ScopeTree.scope?_modifyScope σ.tree id s f
  -- every scope has grown out of one that was there
  have back : ∀ s scope', (σ.tree.modifyScope id f).scope? s = some scope' →
      ∃ scope, σ.tree.scope? s = some scope ∧ Enriches p scope scope' := by
    intro s scope' found
    rw [view] at found
    split at found
    · rename_i here
      subst here
      obtain ⟨scope, found', rfl⟩ := Option.map_eq_some_iff.mp found
      exact ⟨scope, found', enriches scope found'⟩
    · exact ⟨scope', found, .refl scope', fun _ mem => .inl mem, fun _ mem => .inl mem⟩
  have forth : ∀ s scope, σ.tree.scope? s = some scope →
      ∃ scope', (σ.tree.modifyScope id f).scope? s = some scope' ∧ scope.Keeps scope' := by
    intro s scope found
    rw [view, found]
    split
    · rename_i here
      subst here
      exact ⟨f scope, rfl, (enriches scope found).toKeeps⟩
    · exact ⟨scope, rfl, .refl scope⟩
  have within : σ.tree.Within (σ.tree.modifyScope id f) := by
    intro s scope found
    obtain ⟨scope', found', keeps⟩ := forth s scope found
    exact ⟨scope', found', keeps.kind, keeps.node, keeps.parent⟩
  have inside := tidy.raw.rootId_lt
  refine ⟨{ Le.refl σ with scopes := fun s scope found => ?_ },
    { tidy with raw := ?_, arrows := ?_, decls := ?_, hoisted := ?_ },
    fun _ recorded => .inl recorded⟩
  · obtain ⟨scope', found', keeps⟩ := forth s scope found
    exact ⟨scope', found', keeps.toGrows⟩
  · refine ⟨tidy.raw.vars, ⟨?_, ?_⟩, ?_, ?_, ?_, ?_, tidy.raw.distinct⟩
    · rw [ScopeTree.isTop, within.kindIs inside]
      exact tidy.raw.root.1
    · rw [within.parent? inside]
      exact tidy.raw.root.2
    · intro s scope' found other
      obtain ⟨scope, found', keeps⟩ := back s scope' found
      rw [keeps.parent]
      exact tidy.raw.below s scope found' other
    · intro s scope' found
      obtain ⟨scope, found', keeps⟩ := back s scope' found
      exact keeps.blank (tidy.raw.blank s scope found')
    · intro s scope' found
      obtain ⟨scope, found', keeps⟩ := back s scope' found
      rw [keeps.node]
      exact tidy.raw.recorded s scope found'
    · intro node s mem
      obtain ⟨scope, found, own⟩ := tidy.raw.owned node s mem
      obtain ⟨scope', found', keeps⟩ := forth s scope found
      exact ⟨scope', found', keeps.node.trans own⟩
  · intro s scope' facts found kind registered
    rw [view] at found
    split at found
    · rename_i here
      subst here
      obtain ⟨scope, found', rfl⟩ := Option.map_eq_some_iff.mp found
      have keeps := enriches scope found'
      rw [keeps.node] at registered
      rw [arrow scope found' (by rw [registered]; exact Option.some_ne_none facts)]
      exact tidy.arrows id scope facts found' (keeps.kind.symm.trans kind) registered
    · exact tidy.arrows s scope' facts found kind registered
  · intro s scope' found d mem
    obtain ⟨scope, found', enriches⟩ := back s scope' found
    rcases enriches.newDecls d mem with old | new
    · exact tidy.decls s scope found' d old
    · exact new
  · intro s scope' found d mem
    obtain ⟨scope, found', enriches⟩ := back s scope' found
    rcases enriches.newHoisted d mem with old | new
    · exact tidy.hoisted s scope found' d old
    · exact new

theorem enriches_addDecl
    {decl : Decl} (known : Declares p (fun isClass => decl.kind = .cls → isClass = true) decl)
    (scope : Scope) : Enriches p scope { scope with decls := scope.decls ++ [decl] } where
  kind := rfl
  node := rfl
  parent := rfl
  decls := fun d mem => ⟨d, List.mem_append_left _ mem, rfl, rfl, rfl, rfl⟩
  hoisted := fun d mem => ⟨d, mem, rfl⟩
  names := rfl
  env := rfl
  parameters := rfl
  isVariable := rfl
  newDecls := fun d mem => by
    rcases List.mem_append.mp mem with mem | mem
    · exact .inl mem
    · obtain rfl := List.mem_singleton.mp mem
      exact .inr known
  newHoisted := fun _ mem => .inl mem

theorem enriches_variableScope {f : VariableScope → VariableScope} (scope : Scope)
    (parameters : ∀ data, (f data).parameters = data.parameters)
    (kept : ∀ data, ∀ d ∈ data.hoisted, ∃ d' ∈ (f data).hoisted, d'.name = d.name)
    (known : ∀ data, ∀ d ∈ (f data).hoisted, d ∈ data.hoisted ∨ Declares p (· = false) d) :
    Enriches p scope { scope with variableScope := scope.variableScope.map f } where
  kind := rfl
  node := rfl
  parent := rfl
  decls := fun d mem => ⟨d, mem, rfl, rfl, rfl, rfl⟩
  hoisted := by
    intro d mem
    cases data : scope.variableScope with
    | none => simp [Scope.hoisted, data] at mem
    | some old =>
      simp only [Scope.hoisted, data, Option.map_some, Option.getD_some] at mem ⊢
      exact kept old d mem
  names := rfl
  env := rfl
  parameters := by
    cases data : scope.variableScope <;> simp [Scope.parameters, data, parameters]
  isVariable := Option.isSome_map
  newDecls := fun _ mem => .inl mem
  newHoisted := by
    intro d mem
    cases data : scope.variableScope with
    | none => simp [Scope.hoisted, data] at mem
    | some old =>
      simp only [Scope.hoisted, data, Option.map_some, Option.getD_some] at mem ⊢
      exact known old d mem

theorem enriches_addHoisted {decl : Decl} (known : Declares p (· = false) decl) (scope : Scope) :
    Enriches p scope
      { scope with
        variableScope := scope.variableScope.map fun data =>
          { data with hoisted := ScopeTree.insertHoisted data.hoisted decl } } := by
  refine enriches_variableScope scope (fun _ => rfl)
    (fun _ _ mem => ScopeTree.insertHoisted_keeps decl mem) fun data d mem => ?_
  rcases ScopeTree.mem_insertHoisted mem with old | rfl
  · exact .inl old
  · exact .inr known

end Survey

/-! ## New scopes -/

namespace Survey

variable {p : Program} {σ : Survey}

theorem Advances.addScope (tidy : σ.Tidy p) (kind : ScopeKind) {parent : ScopeId}
    (inside : parent < σ.tree.scopes.size) (free : ¬σ.Records node)
    (below : node < σ.nextNodeId) :
    let τ := { σ with tree := σ.tree.addScope kind node (some parent) }
    σ.Le τ ∧ τ.Tidy p ∧ ∀ n, τ.Records n → σ.Records n ∨ n = node := by
  intro τ
  have nodes : τ.tree.nodeScopes = (node, σ.tree.scopes.size) :: σ.tree.nodeScopes :=
    ScopeTree.nodeScopes_addScope σ.tree kind node (some parent)
  have records : ∀ n, τ.Records n → σ.Records n ∨ n = node := by
    rintro n ⟨s, mem⟩
    rw [nodes] at mem
    rcases List.mem_cons.mp mem with same | mem
    · cases same
      exact .inr rfl
    · exact .inl ⟨s, mem⟩
  have kept : ∀ n, σ.Records n → τ.Records n := by
    rintro n ⟨s, mem⟩
    exact ⟨s, nodes ▸ List.mem_cons_of_mem _ mem⟩
  refine ⟨{ Le.refl σ with scopes := fun s scope found => ?_, nodeScopes := ?_ },
    { tidy with
      raw := tidy.raw.addScope kind inside fun s mem => free ⟨s, mem⟩
      main := nodes ▸ List.mem_cons_of_mem _ tidy.main
      below := fun n recorded => ?_
      functions := fun other facts registered => ?_
      constructors := fun other f found => kept other (tidy.constructors other f found)
      arrows := ?_, decls := ?_, hoisted := ?_ }, records⟩
  · obtain ⟨scope', found', alike⟩ := ScopeTree.addScope_forth kind node parent found
    exact ⟨scope', found', alike.toGrows⟩
  · rw [nodes]
    exact List.subset_cons_self _ _
  · rcases records n recorded with old | rfl
    · exact tidy.below n old
    · exact below
  · obtain ⟨recorded, rest⟩ := tidy.functions other facts registered
    exact ⟨kept other recorded, rest⟩
  · intro s scope' facts found kind' registered
    rcases ScopeTree.addScope_back found with ⟨rfl, alike⟩ | ⟨scope, found', alike⟩
    · rw [alike.node] at registered
      exact absurd (tidy.functions node facts registered).1 free
    · rw [alike.isArrow]
      rw [alike.node] at registered
      exact tidy.arrows s scope facts found' (alike.kind.symm.trans kind') registered
  · intro s scope' found d mem
    rcases ScopeTree.addScope_back found with ⟨rfl, alike⟩ | ⟨scope, found', alike⟩
    · rw [alike.sameDecls] at mem
      cases mem
    · rw [alike.sameDecls] at mem
      exact tidy.decls s scope found' d mem
  · intro s scope' found d mem
    rcases ScopeTree.addScope_back found with ⟨rfl, alike⟩ | ⟨scope, found', alike⟩
    · rw [alike.sameHoisted, ScopeTree.hoisted_freshScope] at mem
      cases mem
    · rw [alike.sameHoisted] at mem
      exact tidy.hoisted s scope found' d mem

end Survey

end AccScript
