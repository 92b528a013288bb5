import AccScript.Proofs.Survey.Binding
import AccScript.Proofs.Survey.Names

/-!
# The survey of a whole program

The walk, the binding of variables and the resolution of references, put together: if the identities
of a program are in order, its survey answers every question about the program.  This is
`Ledger.SurveyedRoot` with all that is needed to know it.

The walk leaves claims that hold once everything it recorded can be relied on.  Binding and
resolution make sure that it can.
-/

namespace AccScript

namespace Survey

variable {p : Program} {σ τ : Survey} {types : TypeTable} {c : CompileContext} {s : ScopeId}

/-! ## Before the walk -/

section Start

variable {options : Options}

theorem nodeScopes_start : (start p options).tree.nodeScopes = [(p.id, ScopeTree.rootId)] := by
  unfold start
  cases options.esModule <;> rfl

theorem records_start {n : NodeId} : (start p options).Records n ↔ n = p.id := by
  unfold Records
  rw [nodeScopes_start]
  simp

theorem decls_start {scope : Scope} (found : (start p options).tree.scope? s = some scope) :
    scope.decls = [] ∧ scope.hoisted = [] := by
  have only : (start p options).tree.scopes =
      #[ScopeTree.freshScope {} (if options.esModule then .esModule else .global) p.id none] := by
    unfold start
    cases options.esModule <;> rfl
  rw [ScopeTree.scope?, only] at found
  cases s with
  | zero =>
    cases found
    exact ⟨rfl, ScopeTree.hoisted_freshScope _ _ _ _⟩
  | succ s => simp at found

theorem get?_functions_start (node : NodeId) : (start p options).functions.get? node = none :=
  rfl

theorem tidy_start (numbered : p.WellNumbered) (options : Options) : (start p options).Tidy p where
  numbered := numbered
  raw := ScopeTree.raw_ofRoot (by cases options.esModule <;> rfl) p.id
  main := by
    rw [nodeScopes_start]
    exact List.mem_singleton.mpr rfl
  nextNodeId := Nat.le_refl _
  below := by
    intro n recorded
    rw [records_start.mp recorded]
    exact numbered.below { id := p.id } List.mem_cons_self
  functions := by
    intro node facts registered
    rw [get?_functions_start] at registered
    cases registered
  counted := by
    refine ⟨fun node facts registered => ?_, fun node facts registered => ?_,
      fun node facts _ _ registered => ?_⟩
    all_goals
      rw [get?_functions_start] at registered
      cases registered
  constructors := by
    intro node f recorded
    cases recorded
  arrows := by
    intro s scope facts _ _ registered
    rw [get?_functions_start] at registered
    cases registered
  decls := by
    intro s scope found d mem
    rw [(decls_start found).1] at mem
    cases mem
  hoisted := by
    intro s scope found d mem
    rw [(decls_start found).2] at mem
    cases mem
  fieldKeys := by
    intro member name recorded
    cases recorded

theorem fresh_start (numbered : p.WellNumbered) :
    (start p options).Fresh p (Statement.nodesOfList p.statements) := by
  have distinct := numbered.distinct
  rw [Program.nodes, List.map_cons, List.nodup_cons] at distinct
  refine ⟨fun node mem => List.mem_cons_of_mem _ mem, distinct.2, fun node mem recorded => ?_⟩
  rw [records_start] at recorded
  exact distinct.1 (List.mem_map.mpr ⟨node, mem, recorded⟩)

end Start

/-! ## The exports of a module -/

/-- A declaration that may have got another role. -/
structure Redeclares (a b : Decl) : Prop where
  name : b.name = a.name
  node : b.node = a.node
  kind : b.kind = a.kind
  isExpression : b.isExpression = a.isExpression

theorem redeclares_ite (condition : Prop) [Decidable condition] (decl : Decl) :
    Redeclares decl (if condition then { decl with role := .exported } else decl) := by
  split <;> exact ⟨rfl, rfl, rfl, rfl⟩

theorem Redeclares.declares
    {a b : Decl} (h : Redeclares a b) {isClass : Bool → Prop} (known : Declares p isClass a) :
    Declares p isClass b := by
  obtain ⟨node, mem, own, name, cls⟩ := known
  exact ⟨node, mem, own.trans h.node.symm, name.trans h.name.symm, cls⟩

theorem enriches_markExports
    (tidy : σ.Tidy p) {scope : Scope} (found : σ.tree.scope? s = some scope)
    {f g : Decl → Decl} (declared : ∀ d, Redeclares d (f d)) (hoisted : ∀ d, Redeclares d (g d)) :
    Enriches p scope
      { scope with
        decls := scope.decls.map f
        variableScope := scope.variableScope.map fun data =>
          { data with hoisted := data.hoisted.map g } } := by
  have same : Scope.hoisted { scope with
      decls := scope.decls.map f
      variableScope := scope.variableScope.map fun data =>
        { data with hoisted := data.hoisted.map g } } = scope.hoisted.map g := by
    cases data : scope.variableScope <;> simp [Scope.hoisted, data]
  refine ⟨⟨⟨rfl, rfl, rfl, fun d mem => ?_, fun d mem => ?_⟩, rfl, rfl, ?_, Option.isSome_map⟩,
    fun d mem => ?_, fun d mem => ?_⟩
  · have role := declared d
    exact ⟨f d, List.mem_map_of_mem mem, role.name, role.node, role.kind, role.isExpression⟩
  · rw [same]
    exact ⟨g d, List.mem_map_of_mem mem, (hoisted d).name⟩
  · cases data : scope.variableScope <;> simp [Scope.parameters, data]
  · obtain ⟨old, known, rfl⟩ := List.mem_map.mp mem
    have role := declared old
    rw [role.kind]
    exact .inr (role.declares (tidy.decls s scope found old known))
  · rw [same] at mem
    obtain ⟨old, known, rfl⟩ := List.mem_map.mp mem
    exact .inr ((hoisted old).declares (tidy.hoisted s scope found old known))

theorem Advances.markExports (tidy : σ.Tidy p) (exported : List String) :
    σ.Advances p [] { σ with tree := Survey.markExports σ.tree exported } := by
  unfold Survey.markExports
  refine .mark tidy ScopeTree.rootId (fun scope found => ?_) fun scope _ _ => ?_
  · refine enriches_markExports tidy found (fun d => ?_) fun d => ?_ <;> exact redeclares_ite _ d
  · cases data : scope.variableScope <;> simp [Scope.isArrowFunction, data]

theorem Advances.finishExports (tidy : σ.Tidy p) : σ.Advances p [] σ.finishExports := by
  unfold Survey.finishExports
  split
  · exact .refl tidy _
  · have marked := Advances.markExports tidy
    exact (marked _).trans (.note (marked _).tidy _ _ _ _ _)

/-! ## The passes together -/

/-- The survey of a program after the walk, and after all variables are bound and all references
resolved. -/
structure Analysis (p : Program) (options : Options) (σ τ : Survey) : Prop where
  tidy : σ.Tidy p
  settles : ∀ L : Ledger, L.program = p → L.Upholds σ →
    Statement.SurveyedList L ScopeTree.rootId p.statements
  same : τ = { σ with tree := τ.tree }
  rooted : τ.tree.Rooted
  grown : σ.tree.Extends τ.tree
  complete : ∀ id < σ.tree.scopes.size, σ.Complete id τ
  references : ∀ r ∈ σ.references, τ.tree.Settled options.commonjs r.scope r.name

theorem tidy_ofProgram
    (numbered : p.WellNumbered) {options : Options} (walked : ofProgram p options = .ok σ) :
    σ.Tidy p ∧ ∀ L : Ledger, L.program = p → L.Upholds σ →
      Statement.SurveyedList L ScopeTree.rootId p.statements := by
  obtain ⟨⟨_, τ⟩, walk, finished⟩ := exists_of_bind_eq_ok walked
  cases finished
  have raw := (tidy_start numbered options).raw
  obtain ⟨advances, settles⟩ := ((Walk.tells_walkStatements raw.rootId_lt p.statements).establishes
    _ (Nat.le_refl _)).outcome (tidy_start numbered options) (fresh_start numbered) _ _ walk
  have finish := Advances.finishExports advances.tidy
  exact ⟨finish.tidy, fun L own upheld => settles L own (upheld.mono finish.le)⟩

theorem analysis_of_analyze (numbered : p.WellNumbered) {options : Options}
    (analyzed : analyze p options types = .ok τ) : ∃ σ, Analysis p options σ τ := by
  unfold analyze at analyzed
  split at analyzed
  · obtain ⟨σ, walked, analyzed⟩ := exists_of_bind_eq_ok analyzed
    obtain ⟨μ, bound, analyzed⟩ := exists_of_bind_eq_ok analyzed
    cases analyzed
    obtain ⟨tidy, settles⟩ := tidy_ofProgram numbered walked
    obtain ⟨binds, complete⟩ := binds_bind tidy bound
    have rooted : μ.tree.Rooted := by
      refine ⟨binds.wellFormed, ?_⟩
      rw [ScopeTree.isTop, ScopeTree.kindIs_of_bare binds.grown.bare]
      exact tidy.raw.root.1
    obtain ⟨resolves, processed⟩ :=
      ScopeTree.resolves_resolveReferences rooted options.commonjs μ.references.toList
    have kept : σ.Binds (μ.resolveReferences options) :=
      binds.trans (.of_tree resolves.rooted.toWellFormed resolves.evolves.extends)
    refine ⟨σ, tidy, settles, kept.same, resolves.rooted, kept.grown, fun id inside => ?_,
      fun r mem => ?_⟩
    · exact (complete id inside).kept (.of_tree resolves.rooted.toWellFormed resolves.evolves.extends)
    · refine (processed r ?_).settled
      rw [binds.same]
      exact Array.mem_toList_iff.mpr mem
  · cases analyzed

end Survey

/-! ## Analysed programs -/

/-- All that is known about an analysed program. -/
def CompileContext.ledger (c : CompileContext) (admits : FunctionNode → Prop) : Ledger :=
  { c with surveyed := True, admits }

variable {p : Program} {options : Options} {σ τ : Survey} {admits : FunctionNode → Prop}

namespace Survey.Analysis

variable (h : Survey.Analysis p options σ τ)

include h

theorem counted : τ.Counts := by
  rw [h.same]
  exact h.tidy.counted

theorem scopeOfNode? {node : NodeId} (mem : (node, s) ∈ σ.tree.nodeScopes) :
    τ.tree.scopeOfNode? node = some s := by
  rw [ScopeTree.scopeOfNode?, h.grown.nodeScopes]
  exact h.tidy.raw.scopeOfNode? mem

theorem within : σ.tree.Within τ.tree := by
  intro s scope found
  have same := ScopeTree.map_scope?_of_bare h.grown.bare s
  rw [found, Option.map_some] at same
  obtain ⟨scope', found', bare⟩ := Option.map_eq_some_iff.mp same
  exact ⟨scope', found', (congrArg Scope.kind bare :), (congrArg Scope.node bare :),
    (congrArg Scope.parent bare :)⟩

/-- Whatever the walk has recorded can be relied on. -/
theorem upholds (admitted : ∀ node ∈ p.nodes, ∀ f, node.function = some f → admits f) :
    (CompileContext.ledger ⟨p, options, τ, τ.internalNames p⟩ admits).Upholds σ where
  known := trivial
  admitted := admitted
  distinct := h.tidy.numbered.distinct
  wellFormed := h.rooted.toWellFormed
  top := by
    intro s inside parent
    have inside : s < τ.tree.scopes.size := inside
    have parent : τ.tree.parent? s = none := parent
    rw [ScopeTree.size_of_bare h.grown.bare] at inside
    rw [ScopeTree.parent?_of_bare h.grown.bare] at parent
    obtain rfl := h.tidy.raw.eq_root inside parent
    obtain ⟨scope, found⟩ := ScopeTree.exists_scope? h.rooted.rootId_lt
    show τ.tree.isVariableScope ScopeTree.rootId = true
    rw [ScopeTree.isVariableScope, ScopeTree.kindIs, found]
    exact (h.rooted.kind found).1
  within := h.within
  recorded := fun node s mem => h.scopeOfNode? mem
  references := fun r mem failure failed => (h.references r mem).resolve_error failed
  declared := fun s scope found d mem =>
    (h.complete s (ScopeTree.lt_size_of_scope? found)).declared scope found d mem
  hoisted := fun s scope found d mem =>
    (h.complete s (ScopeTree.lt_size_of_scope? found)).hoisted scope found d mem
  functions := by
    intro node facts registered
    have final : τ.functions.get? node = some facts := by
      rw [h.same]
      exact registered
    refine ⟨⟨facts, final, .refl facts⟩, facts.internalName τ.nameCounts, ?_⟩
    show (τ.internalNames p).get? node = _
    rw [get?_internalNames h.counted, final]
  serves := fun s scope facts found kind registered =>
    (h.complete s (ScopeTree.lt_size_of_scope? found)).serves scope facts found kind registered
  constructors := by
    intro node f recorded
    show τ.classConstructors.get? node = some f
    rw [h.same]
    exact recorded
  fieldKeys := by
    intro member name recorded
    show τ.computedFieldKeys.get? member = some name
    rw [h.same]
    exact recorded
  fieldNodes := by
    intro member name recorded
    have recorded : τ.computedFieldKeys.get? member = some name := recorded
    rw [h.same] at recorded
    exact h.tidy.fieldKeys member name recorded

theorem unregistered : τ.functions.get? p.id = none := by
  rw [h.same]
  cases registered : σ.functions.get? p.id with
  | none => rfl
  | some facts => exact absurd rfl (h.tidy.functions p.id facts registered).2.1

theorem roots : CompileContext.Roots ⟨p, options, τ, τ.internalNames p⟩ := by
  obtain ⟨scope, found, own⟩ := h.tidy.raw.owned p.id ScopeTree.rootId h.tidy.main
  obtain ⟨scope', found', kind, node, parent⟩ := h.within _ scope found
  refine ⟨h.scopeOfNode? h.tidy.main, ⟨scope', found', ?_, ?_, ?_⟩, mainUnitName, ?_⟩
  · have top := h.tidy.raw.root.2
    rw [ScopeTree.parent?, found] at top
    exact parent.trans top
  · exact (h.rooted.kind found').2
  · rw [node, own]
    exact h.unregistered
  · show (τ.internalNames p).get? p.id = _
    rw [get?_internalNames h.counted, h.unregistered]
    exact if_pos rfl

/-- The code generator finds the survey that it needs. -/
theorem surveyedRoot (admitted : ∀ node ∈ p.nodes, ∀ f, node.function = some f → admits f) :
    (CompileContext.ledger ⟨p, options, τ, τ.internalNames p⟩ admits).SurveyedRoot where
  roots _ := h.roots
  statements s inRoot := by
    obtain rfl := inRoot trivial
    exact h.settles _ rfl (h.upholds admitted)

end Survey.Analysis

theorem CompileContext.analysis_of_ofProgram (numbered : p.WellNumbered)
    (analyzed : CompileContext.ofProgram p options types = .ok c) :
    ∃ σ τ, c = ⟨p, options, τ, τ.internalNames p⟩ ∧ Survey.Analysis p options σ τ := by
  unfold CompileContext.ofProgram at analyzed
  cases survey : Survey.analyze p options types with
  | error failure =>
    rw [survey] at analyzed
    cases analyzed
  | ok τ =>
    rw [survey] at analyzed
    cases analyzed
    obtain ⟨σ, analysis⟩ := Survey.analysis_of_analyze numbered survey
    exact ⟨σ, τ, rfl, analysis⟩

theorem CompileContext.eq_of_names (numbered : p.WellNumbered)
    (analyzed : CompileContext.ofProgram p options types = .ok c)
    {node other : NodeId} {name : String} (named : c.names.get? node = some name)
    (named' : c.names.get? other = some name) : node = other := by
  obtain ⟨σ, τ, rfl, analysis⟩ := analysis_of_ofProgram numbered analyzed
  exact Survey.eq_of_internalNames analysis.counted named named'

theorem CompileContext.names_program (numbered : p.WellNumbered)
    (analyzed : CompileContext.ofProgram p options types = .ok c) :
    c.names.get? c.program.id = some mainUnitName := by
  obtain ⟨σ, τ, rfl, analysis⟩ := analysis_of_ofProgram numbered analyzed
  show (τ.internalNames p).get? p.id = _
  rw [Survey.get?_internalNames analysis.counted, analysis.unregistered]
  exact if_pos rfl

end AccScript
