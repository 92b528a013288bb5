import AccScript.Proofs.Metadata.Outcome
import AccScript.Proofs.Survey.Record

/-!
# Variables for all declarations

Binding makes a variable for every declaration of a survey and changes nothing else.  Each step only
extends the scope tree, so what one step binds stays bound; in the end every declaration is bound
where it belongs, and every function has its parameters.
-/

namespace AccScript

namespace Survey

variable {σ μ τ : Survey} {typeOf : NodeId → Nat} {decl : Decl} {options : Options}

/-- A survey with more variables. -/
structure Binds (σ τ : Survey) : Prop where
  wellFormed : τ.tree.WellFormed
  grown : σ.tree.Extends τ.tree
  same : τ = { σ with tree := τ.tree }

theorem Binds.refl (wf : σ.tree.WellFormed) : σ.Binds σ :=
  ⟨wf, .refl _, rfl⟩

theorem Binds.trans (h : σ.Binds μ) (h' : μ.Binds τ) : σ.Binds τ := by
  refine ⟨h'.wellFormed, h.grown.trans h'.grown, ?_⟩
  rw [h'.same, h.same]

theorem Binds.of_tree {t : ScopeTree} (wf : t.WellFormed) (grown : σ.tree.Extends t) :
    σ.Binds { σ with tree := t } :=
  ⟨wf, grown, rfl⟩

theorem Binds.lt_size (h : σ.Binds τ) {s : ScopeId} (inside : s < σ.tree.scopes.size) :
    s < τ.tree.scopes.size := by
  rw [ScopeTree.size_of_bare h.grown.bare]
  exact inside

theorem Binds.functions (h : σ.Binds τ) : τ.functions = σ.functions := by
  rw [h.same]

theorem foldlM_binds {α : Type} {f : Survey → α → Except Failure Survey} (claim : α → Survey → Prop)
    (kept : ∀ x μ τ, μ.Binds τ → claim x μ → claim x τ) :
    (items : List α) → (∀ x ∈ items, ∀ μ τ, σ.Binds μ → f μ x = .ok τ → μ.Binds τ ∧ claim x τ) →
    ∀ {μ τ}, σ.Binds μ → items.foldlM f μ = .ok τ → μ.Binds τ ∧ ∀ x ∈ items, claim x τ
  | [], _, μ, _, start, run => by
      cases run
      exact ⟨.refl start.wellFormed, nofun⟩
  | x :: rest, step, μ, τ, start, run => by
      rw [List.foldlM_cons] at run
      cases first : f μ x with
      | error failure =>
        rw [first] at run
        cases run
      | ok ν =>
        rw [first] at run
        obtain ⟨binds, own⟩ := step x (.head _) μ ν start first
        obtain ⟨binds', others⟩ := foldlM_binds claim kept rest
          (fun y mem => step y (.tail _ mem)) (start.trans binds) run
        refine ⟨binds.trans binds', fun y mem => ?_⟩
        rcases List.mem_cons.mp mem with rfl | mem
        · exact kept y ν τ binds' own
        · exact others y mem

/-! ## Parameters -/

/-- A step binds parameters of a scope. -/
structure Supplies (σ τ : Survey) (s : ScopeId) (count : Nat) (names : List String) : Prop extends
    σ.Binds τ where
  bound : ∀ name ∈ names, τ.tree.Bound s name
  parameters : ∀ data, σ.tree.variableScope? s = some data →
    ∃ data', τ.tree.variableScope? s = some data' ∧
      data.parameters.length + count ≤ data'.parameters.length

variable {s : ScopeId}

theorem Supplies.refl (wf : σ.tree.WellFormed) : σ.Supplies σ s 0 [] :=
  ⟨.refl wf, nofun, fun data found => ⟨data, found, Nat.le_refl _⟩⟩

theorem Supplies.trans {a b : Nat} {first second : List String} (h : σ.Supplies μ s a first)
    (h' : μ.Supplies τ s b second) : σ.Supplies τ s (a + b) (first ++ second) := by
  refine ⟨h.toBinds.trans h'.toBinds, fun name mem => ?_, fun data found => ?_⟩
  · rcases List.mem_append.mp mem with mem | mem
    · exact h'.grown.names s name (h.bound name mem)
    · exact h'.bound name mem
  · obtain ⟨data', found', le⟩ := h.parameters data found
    obtain ⟨data'', found'', le'⟩ := h'.parameters data' found'
    exact ⟨data'', found'', by omega⟩

theorem Supplies.of_binds
    {names : List String} (h : σ.Binds τ) (bound : ∀ name ∈ names, τ.tree.Bound s name) :
    σ.Supplies τ s 0 names :=
  ⟨h, bound, fun data found => h.grown.parameters s data found⟩

theorem supplies_addParameter
    (wf : σ.tree.WellFormed) (inside : s < σ.tree.scopes.size) (name : String) (kind : VarKind)
    (isImplicit isVisible : Bool) :
    σ.Supplies (σ.addParameter s name kind isImplicit isVisible) s 1
      (if isVisible then [name] else []) := by
  obtain ⟨wf', grown, bound, length⟩ :=
    ScopeTree.addParameter_spec wf inside name kind isImplicit isVisible
  refine ⟨.of_tree wf' grown, fun other mem => ?_, fun data found => ?_⟩
  · cases isVisible with
    | false => cases mem
    | true =>
      obtain rfl := List.mem_singleton.mp mem
      exact bound rfl
  · obtain ⟨data', found', same⟩ := length data found
    exact ⟨data', found', Nat.le_of_eq same.symm⟩

theorem supplies_addNames (wf : σ.tree.WellFormed) (inside : s < σ.tree.scopes.size)
    (isVariable : σ.tree.isVariableScope s = true) (names : List String) :
    σ.Supplies
      { σ with tree := names.foldl (fun t name => (t.add s name .var .notModule).2) σ.tree } s 0
      names := by
  induction names generalizing σ with
  | nil => exact .refl wf
  | cons name rest ih =>
    have binds := ScopeTree.binds_add wf inside name (show VarKind.var ≠ .undeclared from nofun)
      .notModule
    have home : σ.tree.home s .var = s := ScopeTree.nearest_of_self isVariable
    rw [home] at binds
    let next : Survey := { σ with tree := (σ.tree.add s name .var .notModule).2 }
    have first : σ.Binds next := .of_tree binds.wellFormed binds.grown
    have own : σ.Supplies next s 0 [name] := .of_binds first fun other mem => by
      obtain rfl := List.mem_singleton.mp mem
      exact binds.bound
    have isVariable' : next.tree.isVariableScope s = true := by
      rw [ScopeTree.isVariableScope, ScopeTree.kindIs_of_bare binds.grown.bare]
      exact isVariable
    exact own.trans (ih binds.wellFormed (first.lt_size inside) isVariable')

theorem supplies_bindParameter (wf : σ.tree.WellFormed) (inside : s < σ.tree.scopes.size)
    (isVariable : σ.tree.isVariableScope s = true) (index : Nat) (parameter : ParameterNames) :
    σ.Supplies (σ.bindParameter s index parameter) s 1 parameter.names := by
  cases parameter with
  | single name => exact supplies_addParameter wf inside name .var false true
  | pattern names =>
    have value := supplies_addParameter wf inside (toString index ++ "pattern") .var true true
    have parts := supplies_addNames value.wellFormed (value.lt_size inside)
      (by
        rw [ScopeTree.isVariableScope, ScopeTree.kindIs_of_bare value.grown.bare]
        exact isVariable) names
    have both := value.trans parts
    exact ⟨both.toBinds, fun name mem => both.bound name (List.mem_append_right _ mem),
      both.parameters⟩

theorem supplies_foldl {α : Type} (f : Survey → α → Survey) (names : α → List String)
    (step : ∀ x (μ : Survey), μ.tree.WellFormed → s < μ.tree.scopes.size →
      μ.tree.isVariableScope s = true → μ.Supplies (f μ x) s 1 (names x)) (items : List α)
    (wf : σ.tree.WellFormed) (inside : s < σ.tree.scopes.size)
    (isVariable : σ.tree.isVariableScope s = true) :
    σ.Supplies (items.foldl f σ) s items.length (items.flatMap names) := by
  induction items generalizing σ with
  | nil => exact .refl wf
  | cons x rest ih =>
    have own := step x σ wf inside isVariable
    have others := ih own.wellFormed (own.lt_size inside) (by
      rw [ScopeTree.isVariableScope, ScopeTree.kindIs_of_bare own.grown.bare]
      exact isVariable)
    have both := own.trans others
    rw [Nat.add_comm] at both
    exact both

theorem binds_add
    (wf : σ.tree.WellFormed) (inside : s < σ.tree.scopes.size) (name : String) {kind : VarKind}
    (declared : kind ≠ .undeclared) (role : ModuleRole) (f : Variable → Variable)
    (named : ∀ data, (f data).name = data.name) (owned : ∀ data, (f data).scope = data.scope)
    (slot : ∀ data, (f data).slot = data.slot) :
    σ.Binds { σ with
        tree := (σ.tree.add s name kind role).2.modifyVariable (σ.tree.add s name kind role).1 f } ∧
      ((σ.tree.add s name kind role).2.modifyVariable (σ.tree.add s name kind role).1 f).Bound
        (σ.tree.home s kind) name := by
  have binds := ScopeTree.binds_add wf inside name declared role
  have changed := ScopeTree.Extends.modifyVariable (σ.tree.add s name kind role).2
    (σ.tree.add s name kind role).1 f
  exact ⟨.of_tree (binds.wellFormed.modifyVariable _ named owned slot) (binds.grown.trans changed),
    changed.names _ _ binds.bound⟩

theorem supplies_bindFunctionParameters (wf : σ.tree.WellFormed) (inside : s < σ.tree.scopes.size)
    (isVariable : σ.tree.isVariableScope s = true) (options : Options) (facts : FunctionFacts) :
    σ.Supplies (σ.bindFunctionParameters options s facts) s facts.parameters.length
      (facts.parameters.flatMap ParameterNames.names) := by
  have own := supplies_foldl
    (fun survey (x : ParameterNames × Nat) => survey.bindParameter s x.2 x.1) (fun x => x.1.names)
    (fun x μ wf inside isVariable => supplies_bindParameter wf inside isVariable x.2 x.1)
    facts.parameters.zipIdx wf inside isVariable
  have names : facts.parameters.zipIdx.flatMap (fun x => x.1.names) =
      facts.parameters.flatMap ParameterNames.names := by
    rw [← List.flatMap_map Prod.fst ParameterNames.names, List.zipIdx_map_fst]
  rw [names, List.length_zipIdx] at own
  unfold bindFunctionParameters
  dsimp only
  split
  · have arguments := (binds_add own.wellFormed (own.lt_size inside) HiddenName.arguments
      (show VarKind.const ≠ .undeclared from nofun) .notModule
      (fun data => { data with startsInitialized := true }) (fun _ => rfl) (fun _ => rfl)
      (fun _ => rfl)).1
    exact ⟨own.toBinds.trans arguments, fun name mem => arguments.grown.names s name
      (own.bound name mem), fun data found => by
        obtain ⟨data', found', enough⟩ := own.parameters data found
        obtain ⟨data'', found'', more⟩ := arguments.grown.parameters s data' found'
        exact ⟨data'', found'', Nat.le_trans enough more⟩⟩
  · exact own

theorem binds_bindParameters (wf : σ.tree.WellFormed) (inside : s < σ.tree.scopes.size)
    (isVariable : σ.tree.isVariableScope s = true)
    (has : ∃ data, σ.tree.variableScope? s = some data) {scope : Scope}
    (run : σ.bindParameters options s scope = .ok τ) :
    σ.Binds τ ∧ (scope.kind = .function → ∀ facts, σ.functions.get? scope.node = some facts →
      facts.Coherent → scope.isArrowFunction = facts.kind.isArrow → τ.tree.Serves s facts) := by
  have fixed : ∀ {μ : Survey}, σ.Binds μ → μ.tree.isVariableScope s = true := by
    intro μ binds
    rw [ScopeTree.isVariableScope, ScopeTree.kindIs_of_bare binds.grown.bare]
    exact isVariable
  have hidden := supplies_foldl
    (fun survey name => survey.addParameter s name .const true (!scope.isArrowFunction)) _
    (fun x μ wf inside _ => supplies_addParameter wf inside x .const true !scope.isArrowFunction)
    [HiddenName.funcObj, HiddenName.newTarget, HiddenName.this] wf inside isVariable
  unfold bindParameters at run
  dsimp only at run
  cases kind : scope.kind with
  | global =>
    rw [kind] at run
    dsimp only at run
    cases run
    refine ⟨hidden.toBinds.trans ?_, by simp⟩
    split
    · exact (supplies_foldl
        (fun survey name => survey.addParameter s name .let false true) _
        (fun x μ wf inside _ => supplies_addParameter wf inside x .let false true)
        HiddenName.commonjs hidden.wellFormed (hidden.lt_size inside) (fixed hidden.toBinds)).toBinds
    · exact .refl hidden.wellFormed
  | function =>
    rw [kind] at run
    dsimp only at run
    split at run
    · rename_i facts registered
      cases run
      have own := supplies_bindFunctionParameters hidden.wellFormed (hidden.lt_size inside)
        (fixed hidden.toBinds) options facts
      have both := hidden.trans own
      rw [hidden.functions] at registered
      refine ⟨both.toBinds, fun _ facts' registered' coherent arrow => ?_⟩
      obtain rfl : facts' = facts := Option.some.inj (registered'.symm.trans registered)
      obtain ⟨data, found⟩ := has
      obtain ⟨data', found', enough⟩ := both.parameters data found
      refine ⟨⟨data', found', by omega⟩, fun name mem => ?_, fun ordinary name mem => ?_⟩
      · obtain ⟨parameter, own, bound⟩ := coherent name mem
        exact both.bound name
          (List.mem_append_right _ (List.mem_flatMap.mpr ⟨parameter, own, bound⟩))
      · refine both.bound name (List.mem_append_left _ (List.mem_flatMap.mpr ⟨name, mem, ?_⟩))
        rw [arrow, ordinary]
        exact List.mem_singleton_self name
    · cases run
  | esModule =>
    rw [kind] at run
    cases run
    exact ⟨hidden.toBinds, by simp⟩
  | block =>
    rw [kind] at run
    cases run
    exact ⟨hidden.toBinds, by simp⟩
  | loop =>
    rw [kind] at run
    cases run
    exact ⟨hidden.toBinds, by simp⟩

/-! ## Declarations -/

theorem binds_addVariable (wf : σ.tree.WellFormed) (inside : s < σ.tree.scopes.size)
    {kind : VarKind} (declared : kind ≠ .undeclared) {v : VariableId}
    (run : σ.addVariable typeOf s decl kind = .ok (v, τ)) :
    σ.Binds τ ∧ τ.tree.Bound (σ.tree.home s kind) decl.name := by
  obtain ⟨data, -, run⟩ := exists_of_bind_eq_ok run
  obtain ⟨storage, -, run⟩ := exists_of_bind_eq_ok run
  cases run
  exact binds_add wf inside decl.name declared decl.role _ (fun _ => rfl) (fun _ => rfl)
    fun _ => rfl

theorem binds_variable (wf : σ.tree.WellFormed) (inside : s < σ.tree.scopes.size)
    (kind : VarKind) (declared : kind ≠ .undeclared)
    (run : (do return (← σ.addVariable typeOf s decl kind).2) = Except.ok τ) :
    σ.Binds τ ∧ τ.tree.Bound (σ.tree.home s kind) decl.name := by
  obtain ⟨⟨v, μ⟩, step, run⟩ := exists_of_bind_eq_ok run
  cases run
  exact binds_addVariable wf inside declared step

theorem binds_bindHoisted (wf : σ.tree.WellFormed) (inside : s < σ.tree.scopes.size)
    (isVariable : σ.tree.isVariableScope s = true)
    (run : σ.bindHoisted typeOf s decl = .ok τ) :
    σ.Binds τ ∧ τ.tree.Bound s decl.name := by
  have here : σ.tree.nearestVariableScope s = s := ScopeTree.nearest_of_self isVariable
  unfold bindHoisted at run
  cases kind : decl.kind with
  | var =>
    rw [kind] at run
    have binds := binds_variable wf inside .var nofun run
    rwa [ScopeTree.home, if_pos rfl, here] at binds
  | function =>
    rw [kind] at run
    exact binds_variable wf inside .function nofun run
  | _ =>
    rw [kind] at run
    cases run

theorem binds_bindDecl (wf : σ.tree.WellFormed) (inside : s < σ.tree.scopes.size)
    (recorded : ∀ node inner, σ.tree.scopeOfNode? node = some inner →
      inner < σ.tree.scopes.size)
    (run : σ.bindDecl typeOf s decl = .ok τ) : σ.Binds τ ∧ τ.tree.Declared s decl := by
  unfold bindDecl at run
  unfold ScopeTree.Declared
  cases kind : decl.kind with
  | «let» | catchParameter =>
    rw [kind] at run
    exact binds_variable wf inside .let (by simp) run
  | function =>
    rw [kind] at run
    exact binds_variable wf inside .function (by simp) run
  | const =>
    rw [kind] at run
    dsimp only at run
    obtain ⟨⟨v, μ⟩, step, run⟩ := exists_of_bind_eq_ok run
    obtain ⟨binds, bound⟩ :=
      binds_addVariable wf inside (show VarKind.const ≠ .undeclared by simp) step
    dsimp only at run
    split at run
    · cases run
      have changed := ScopeTree.Extends.modifyVariable μ.tree v fun data =>
        { data with startsInitialized := true }
      have wf' := binds.wellFormed.modifyVariable v
        (show ∀ data : Variable, ({ data with startsInitialized := true } : Variable).name =
          data.name from fun _ => rfl) (fun _ => rfl) (fun _ => rfl)
      exact ⟨binds.trans (.of_tree wf' changed), changed.names _ _ bound⟩
    · cases run
      exact ⟨binds, bound⟩
  | cls =>
    rw [kind] at run
    dsimp only at run ⊢
    split at run
    · rename_i expression
      obtain ⟨target, found, run⟩ := exists_of_bind_eq_ok run
      have here : σ.tree.scopeOfNode? decl.node = some target := by
        unfold scopeOf at found
        split at found
        · cases found
          assumption
        · cases found
      obtain ⟨binds, bound⟩ := binds_variable wf (recorded _ _ here) .cls (by simp) run
      refine ⟨binds, ?_⟩
      rw [if_pos expression]
      intro inner found'
      rw [ScopeTree.scopeOfNode?, binds.grown.nodeScopes] at found'
      obtain rfl : target = inner := Option.some.inj (here.symm.trans found')
      exact bound
    · rename_i declaration
      rw [if_neg declaration]
      exact binds_variable wf inside .cls (by simp) run
  | var =>
    rw [kind] at run
    dsimp only at run ⊢
    split at run
    · obtain ⟨binds, bound⟩ := binds_variable wf inside .var (by simp) run
      refine ⟨binds, fun _ => ?_⟩
      rw [ScopeTree.nearestVariableScope_of_bare binds.grown.bare]
      exact bound
    · rename_i ordinary
      cases run
      exact ⟨.refl wf, fun isGlobal => absurd (List.contains_iff_mem.mpr isGlobal) ordinary⟩

/-! ## Scopes -/

/-- What binding leaves alone in a scope. -/
structure Resembles (a b : Scope) : Prop where
  kind : b.kind = a.kind
  node : b.node = a.node
  decls : b.decls = a.decls
  hoisted : b.hoisted = a.hoisted
  isArrow : b.isArrowFunction = a.isArrowFunction
  isVariable : b.variableScope.isSome = a.variableScope.isSome

theorem resembles_of_bare {a b : Scope} (h : b.bare = a.bare) : Resembles a b := by
  have hoisted : ∀ scope : Scope, scope.bare.hoisted = scope.hoisted := by
    intro scope
    cases data : scope.variableScope <;> simp [Scope.hoisted, Scope.bare, data]
  have arrow : ∀ scope : Scope, scope.bare.isArrowFunction = scope.isArrowFunction := by
    intro scope
    cases data : scope.variableScope <;> simp [Scope.isArrowFunction, Scope.bare, data]
  have isVariable : ∀ scope : Scope,
      scope.bare.variableScope.isSome = scope.variableScope.isSome :=
    fun scope => Option.isSome_map
  refine ⟨(congrArg Scope.kind h :), (congrArg Scope.node h :), (congrArg Scope.decls h :), ?_, ?_, ?_⟩
  · rw [← hoisted a, ← hoisted b, h]
  · rw [← arrow a, ← arrow b, h]
  · rw [← isVariable a, ← isVariable b, h]

theorem Binds.resembles
    (h : σ.Binds τ) {s : ScopeId} {scope : Scope} (found : τ.tree.scope? s = some scope) :
    ∃ before, σ.tree.scope? s = some before ∧ Resembles before scope := by
  have same := ScopeTree.map_scope?_of_bare h.grown.bare s
  rw [found, Option.map_some] at same
  obtain ⟨before, found', same'⟩ := Option.map_eq_some_iff.mp same.symm
  exact ⟨before, found', resembles_of_bare same'.symm⟩

/-- All that a scope declares is bound. -/
structure Complete (σ : Survey) (id : ScopeId) (τ : Survey) : Prop where
  declared : ∀ scope, σ.tree.scope? id = some scope → ∀ d ∈ scope.decls, τ.tree.Declared id d
  hoisted : ∀ scope, σ.tree.scope? id = some scope → ∀ d ∈ scope.hoisted,
    τ.tree.Bound id d.name
  serves : ∀ scope facts, σ.tree.scope? id = some scope → scope.kind = .function →
    σ.functions.get? scope.node = some facts → τ.tree.Serves id facts

theorem Complete.kept {id : ScopeId} (h : σ.Complete id μ) (binds : μ.Binds τ) : σ.Complete id τ :=
  ⟨fun scope found d mem => (h.declared scope found d mem).grown binds.grown,
    fun scope found d mem => binds.grown.names _ _ (h.hoisted scope found d mem),
    fun scope facts found kind registered =>
      (h.serves scope facts found kind registered).grown binds.grown⟩

theorem binds_bindScope {p : Program} (tidy : σ.Tidy p) (start : σ.Binds μ) {id : ScopeId}
    (run : bindScope options typeOf μ id = .ok τ) :
    μ.Binds τ ∧ σ.Complete id τ := by
  obtain ⟨scope', read, run⟩ := exists_of_bind_eq_ok run
  have found' : μ.tree.scope? id = some scope' := by
    cases found : μ.tree.scope? id with
    | none =>
      rw [found] at read
      cases read
    | some other =>
      rw [found] at read
      cases read
      rfl
  obtain ⟨scope, found, same⟩ := start.resembles found'
  have inside : id < σ.tree.scopes.size := ScopeTree.lt_size_of_scope? found
  have blank := tidy.raw.blank id scope found
  have isVariable : scope.kind.isVariableScope = true → ∀ {ν : Survey}, σ.Binds ν →
      ν.tree.isVariableScope id = true := by
    intro variableKind ν binds
    rw [ScopeTree.isVariableScope, ScopeTree.kindIs_of_bare binds.grown.bare, ScopeTree.kindIs,
      found]
    exact variableKind
  -- parameters come first
  obtain ⟨ν, binds, serves, run⟩ : ∃ ν, μ.Binds ν ∧ (scope.kind = .function → ∀ facts,
      σ.functions.get? scope.node = some facts → ν.tree.Serves id facts) ∧
      (scope'.hoisted.foldlM (fun survey decl => survey.bindHoisted typeOf id decl) ν >>=
        (scope'.decls.filter fun decl => !(scope'.hoisted.map Decl.node).contains decl.node).foldlM
          fun survey decl => survey.bindDecl typeOf id decl) = .ok τ := by
    dsimp only at run
    split at run
    · rename_i variableKind
      rw [same.kind] at variableKind
      obtain ⟨ν, step, run⟩ := exists_of_bind_eq_ok run
      obtain ⟨data, has⟩ := Option.isSome_iff_exists.mp
        (same.isVariable.trans (blank.isVariable.trans variableKind))
      obtain ⟨binds, serves⟩ := binds_bindParameters start.wellFormed (start.lt_size inside)
        (isVariable variableKind start) ⟨data, by rw [ScopeTree.variableScope?, found']; exact has⟩
        step
      refine ⟨ν, binds, fun kind facts registered => ?_, run⟩
      refine serves (same.kind.trans kind) facts ?_ (tidy.functions _ facts registered).2.2 ?_
      · rw [start.functions, same.node]
        exact registered
      · rw [same.isArrow]
        exact tidy.arrows id scope facts found kind registered
    · rename_i other
      refine ⟨μ, .refl start.wellFormed, fun kind => ?_, run⟩
      rw [same.kind, kind] at other
      exact absurd rfl other
  rw [same.hoisted, same.decls] at run
  obtain ⟨ξ, hoists, run⟩ := exists_of_bind_eq_ok run
  -- then the hoisted declarations, then the others
  obtain ⟨binds', bound⟩ := foldlM_binds (fun d : Decl => fun τ => τ.tree.Bound id d.name)
    (fun _ _ _ binds bound => binds.grown.names _ _ bound) scope.hoisted
    (fun d mem μ τ start step => binds_bindHoisted start.wellFormed (start.lt_size inside)
      (isVariable (by
        rw [← blank.isVariable, Option.isSome_iff_ne_none]
        intro none
        simp [Scope.hoisted, none] at mem) start) step) (start.trans binds) hoists
  obtain ⟨binds'', declared⟩ := foldlM_binds (fun d : Decl => fun τ => τ.tree.Declared id d)
    (fun _ _ _ binds declared => declared.grown binds.grown) _
    (fun d mem μ τ start step => binds_bindDecl start.wellFormed (start.lt_size inside)
      (fun node inner recorded => by
        rw [ScopeTree.scopeOfNode?, start.grown.nodeScopes] at recorded
        obtain ⟨scope, found, -⟩ := tidy.raw.owned node inner (ScopeTree.mem_of_scopeOfNode? recorded)
        exact start.lt_size (ScopeTree.lt_size_of_scope? found)) step) ((start.trans binds).trans binds') run
  refine ⟨(binds.trans binds').trans binds'', fun other here d mem => ?_, fun other here d mem => ?_,
    fun other facts here kind registered => ?_⟩
  all_goals
    rw [found] at here
    cases here
  · by_cases isHoisted : d.node ∈ scope.hoisted.map Decl.node
    · -- a hoisted declaration of the same node has the same name, and no class is hoisted
      obtain ⟨d', mem', sameNode⟩ := List.mem_map.mp isHoisted
      obtain ⟨node, known, own, name, isClass⟩ := tidy.hoisted id scope found d' mem'
      obtain ⟨node', known', own', name', isClass'⟩ := tidy.decls id scope found d mem
      obtain rfl := SourceNode.eq_of_id tidy.numbered.distinct known known'
        (own.trans (sameNode.trans own'.symm))
      have here := binds''.grown.names _ _ (bound d' mem')
      rw [← name, name'] at here
      have top : scope.kind.isVariableScope = true := by
        rw [← blank.isVariable, Option.isSome_iff_ne_none]
        intro none
        simp [Scope.hoisted, none] at mem'
      have all := ((start.trans binds).trans binds').trans binds''
      unfold ScopeTree.Declared
      cases kind : d.kind with
      | cls =>
        rw [isClass] at isClass'
        exact absurd (isClass' kind) Bool.false_ne_true
      | var =>
        intro _
        rw [ScopeTree.nearestVariableScope, ScopeTree.nearest_of_self (isVariable top all)]
        exact here
      | _ => exact here
    · exact declared d (List.mem_filter.mpr ⟨mem, by simpa using isHoisted⟩)
  · exact binds''.grown.names _ _ (bound d mem)
  · exact (serves kind facts registered).grown (binds'.trans binds'').grown

theorem binds_bind {p : Program} (tidy : σ.Tidy p) {types : TypeTable}
    (run : σ.bind p options types = .ok τ) :
    σ.Binds τ ∧ ∀ id < σ.tree.scopes.size, σ.Complete id τ := by
  have start : σ.Binds σ := .refl tidy.raw.rooted.toWellFormed
  obtain ⟨binds, complete⟩ := foldlM_binds (fun id τ => σ.Complete id τ)
    (fun _ _ _ binds complete => complete.kept binds) (List.range σ.tree.scopes.size)
    (fun _ _ _ _ start step => binds_bindScope tidy start step) start run
  exact ⟨binds, fun id inside => complete id (List.mem_range.mpr inside)⟩

end Survey

end AccScript
