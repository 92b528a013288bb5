import AccScript.Proofs.Survey.Establish
import Mathlib.Tactic.SplitIfs

/-!
# Uses and declarations of names

What the walk establishes when it records that a name is used or declared: a name that is used, and
a name that is declared, is reached in the end from the scope in which the walk met it.  Hoisted
names are bound by a variable scope further out.
-/

namespace AccScript

variable {p : Program} {σ : Survey} {n : Nat} {s : ScopeId} {decl : Decl}

/-! ## Names that are reached -/

theorem CompileContext.reaches_of_bound
    {c : CompileContext} {name : String} (bound : c.survey.tree.Bound s name) :
    c.Reaches s name :=
  fun _ failed =>
    (ScopeTree.settled_of_uncrossed (ScopeTree.find?_of_bound bound)).resolve_error failed

theorem Ledger.Upholds.reaches_of_nearest
    {L : Ledger} (h : L.Upholds σ) {s : Nat} (inside : s < σ.tree.scopes.size) {name : String}
    (bound : L.survey.tree.Bound (L.survey.tree.nearestVariableScope s) name) :
    L.Reaches s name := by
  have still : s < L.survey.tree.scopes.size := by
    obtain ⟨scope, found⟩ := ScopeTree.exists_scope? inside
    obtain ⟨_, found', -⟩ := h.within s scope found
    exact ScopeTree.lt_size_of_scope? found'
  have found := ScopeTree.find?_of_bound_nearest h.wellFormed.ordered still h.top bound
  exact fun _ failed => (ScopeTree.settled_of_uncrossed found).resolve_error failed

theorem ScopeTree.isVariableScope_of_function
    {t : ScopeTree} (h : t.kindIs (· = .function) s = true) :
    t.isVariableScope s = true := by
  unfold kindIs at h
  unfold isVariableScope kindIs
  cases found : t.scope? s with
  | none => simp [found] at h
  | some scope =>
    have kind : scope.kind = .function := by simpa [found] using h
    simp [kind, ScopeKind.isVariableScope]

theorem ScopeTree.Raw.isVariableScope_nearest
    {t : ScopeTree} (raw : t.Raw) {s : Nat} (inside : s < t.scopes.size) :
    t.isVariableScope (t.nearestVariableScope s) = true := by
  induction s using ancestry_induction raw.ordered with
  | root s none =>
    obtain rfl := raw.eq_root inside none
    have own : t.isVariableScope rootId = true := by
      have top := raw.root.1
      unfold isTop kindIs at top
      unfold isVariableScope kindIs
      cases found : t.scope? rootId with
      | none => simp [found] at top
      | some scope => cases kind : scope.kind <;> simp_all [ScopeKind.isVariableScope]
    rw [nearestVariableScope, nearest_of_self own]
    exact own
  | step s p some ih =>
    by_cases own : t.isVariableScope s = true
    · rw [nearestVariableScope, nearest_of_self own]
      exact own
    · rw [nearestVariableScope, nearest_of_parent raw.ordered some (by simpa using own)]
      exact ih (Nat.lt_trans (raw.ordered s p some) inside)

namespace Walk

/-! ## Uses and declarations -/

theorem establishes_addReference (s : ScopeId) (name : String) (isAssignment : Bool) :
    Establishes p n [] (addReference s name isAssignment) fun _ L => L.Reaches s name := by
  have push : Establishes p n []
      (modify fun survey : Survey =>
        { survey with references := survey.references.push ⟨s, name, isAssignment⟩ })
      fun _ L => L.Reaches s name :=
    .modify (fun _ tidy _ => .refer tidy _) fun _ L _ _ _ upheld =>
      upheld.references ⟨s, name, isAssignment⟩ Array.mem_push_self
  -- that a function uses its arguments changes none of its bindings
  have mark : ∀ owner, Establishes p n []
      (modifyTree (·.modifyVariableScope owner fun data => { data with usesArguments := true }))
      fun _ _ => True := by
    refine fun owner => .modify (fun σ tidy _ => ?_) fun _ _ _ _ _ _ => trivial
    refine .mark tidy owner (fun scope _ => Survey.enriches_variableScope scope (fun _ => rfl)
      (fun _ d mem => ⟨d, mem, rfl⟩) fun _ _ mem => .inl mem) fun scope _ _ => ?_
    cases data : scope.variableScope <;> simp [Scope.isArrowFunction, data]
  unfold addReference
  split
  · refine .get fun σ many => ?_
    dsimp only
    split
    · exact ((mark _).andThen push).imp (fun _ _ _ both => both.2) σ many
    · exact push σ many
  · exact push

theorem establishes_addDecl (inside : s < n)
    (known : Survey.Declares p (fun isClass => decl.kind = .cls → isClass = true) decl) :
    Establishes p n [] (addDecl s decl) fun _ L => L.survey.tree.Declared s decl := by
  refine .modify (fun σ tidy many => ?_) fun σ L tidy many _ upheld => ?_
  · exact .mark tidy s (fun scope _ => Survey.enriches_addDecl known scope) fun _ _ _ => rfl
  · obtain ⟨scope, found⟩ := ScopeTree.exists_scope? (Nat.lt_of_lt_of_le inside many)
    refine upheld.declared s { scope with decls := scope.decls ++ [decl] } ?_ decl
      (List.mem_append_right _ (List.mem_singleton_self decl))
    show ((σ.tree.addDecl s decl).scope? s) = _
    rw [ScopeTree.addDecl, ScopeTree.scope?_modifyScope, if_pos rfl, found]
    rfl

theorem establishes_addHoisted
    (inside : s < σ.tree.scopes.size) (isVariable : σ.tree.isVariableScope s = true)
    (known : Survey.Declares p (· = false) decl) :
    σ.Establishes p [] (modifyTree (·.addHoisted s decl)) fun _ L =>
      L.survey.tree.Bound s decl.name := by
  refine ⟨fun tidy _ x τ run => ?_⟩
  cases run
  have advance : σ.Advances p [] { σ with tree := σ.tree.addHoisted s decl } := by
    refine .mark tidy s (fun scope _ => Survey.enriches_addHoisted known scope) fun scope _ _ => ?_
    cases data : scope.variableScope <;> simp [Scope.isArrowFunction, data]
  refine ⟨advance, fun L _ upheld => ?_⟩
  obtain ⟨scope, found⟩ := ScopeTree.exists_scope? inside
  have variableKind : scope.kind.isVariableScope = true := by
    simpa [ScopeTree.isVariableScope, ScopeTree.kindIs, found] using isVariable
  obtain ⟨data, own⟩ :=
    Option.isSome_iff_exists.mp ((tidy.raw.blank s scope found).isVariable.trans variableKind)
  obtain ⟨d, mem, name⟩ := ScopeTree.exists_mem_insertHoisted data.hoisted decl
  rw [← name]
  refine upheld.hoisted s { scope with variableScope := some { data with
    hoisted := ScopeTree.insertHoisted data.hoisted decl } } ?_ d (by simpa [Scope.hoisted] using mem)
  show (σ.tree.addHoisted s decl).scope? s = _
  rw [ScopeTree.addHoisted, ScopeTree.modifyVariableScope, ScopeTree.scope?_modifyScope, if_pos rfl,
    found, Option.map_some, own]
  rfl

theorem establishes_hoist
    (inside : s < σ.tree.scopes.size) (isVariable : σ.tree.isVariableScope s = true)
    (known : Survey.Declares p (· = false) decl) :
    σ.Establishes p [] (hoist s decl) fun _ L =>
      decl.name ∈ HiddenName.globals ∨ L.survey.tree.Bound s decl.name := by
  obtain ⟨scope, found⟩ := ScopeTree.exists_scope? inside
  refine ⟨fun tidy fresh x τ run => ?_⟩
  unfold hoist at run
  simp only [StateT.run_bind, StateT.run_get, pure_bind, found] at run
  split_ifs at run with exempt
  · obtain ⟨advance, bound⟩ :=
      (establishes_addHoisted inside isVariable known).outcome tidy fresh x τ run
    exact ⟨advance, fun L own upheld => .inr (bound L own upheld)⟩
  · cases run
    refine ⟨.refl tidy _, fun L _ upheld => ?_⟩
    rw [Bool.and_eq_true, Bool.not_eq_true', Bool.not_eq_true', not_and_or] at exempt
    rcases exempt with parameter | global
    · rw [Bool.not_eq_false, Bool.and_eq_true, Bool.and_eq_true] at parameter
      obtain ⟨⟨function, -⟩, mem⟩ := parameter
      split at mem
      · rename_i facts registered
        have serves := upheld.serves s scope facts found (of_decide_eq_true function) registered
        exact .inr (serves.names decl.name (List.contains_iff_mem.mp mem))
      · cases mem
    · rw [Bool.not_eq_false, Bool.and_eq_true] at global
      exact .inl (List.contains_iff_mem.mp global.2)

theorem establishes_hoistFrom (inside : s < n) (known : Survey.Declares p (· = false) decl) :
    Establishes p n [] (do hoist ((← get).tree.nearestVariableScope s) decl) fun _ L =>
      decl.name ∈ HiddenName.globals ∨ L.Reaches s decl.name := by
  refine .get fun σ many => ⟨fun tidy fresh x τ run => ?_⟩
  have here : s < σ.tree.scopes.size := Nat.lt_of_lt_of_le inside many
  have outer : σ.tree.nearestVariableScope s < σ.tree.scopes.size :=
    Nat.lt_of_le_of_lt (ScopeTree.nearest_le tidy.raw.ordered _ s) here
  obtain ⟨advance, claimed⟩ :=
    (establishes_hoist outer (tidy.raw.isVariableScope_nearest here) known).outcome tidy fresh x τ
      run
  refine ⟨advance, fun L own upheld => (claimed L own upheld).imp_right fun bound => ?_⟩
  have before := upheld.mono advance.le
  rw [← before.within.nearestVariableScope tidy.raw.ordered before.wellFormed.ordered here] at bound
  exact before.reaches_of_nearest here bound

theorem establishes_declare (inside : s < n) (kind : DeclarationKind) (role : ModuleRole)
    {identifier : Identifier} (known : SourceNode.ofIdentifier identifier ∈ p.nodes) :
    Establishes p n [] (declare s (declKind kind) role identifier) fun _ L =>
      L.Reaches s identifier.name := by
  let decl : Decl :=
    { name := identifier.name, node := identifier.id, kind := declKind kind, role }
  have added : Establishes p n [] (addDecl s decl) fun _ L => L.survey.tree.Declared s decl :=
    establishes_addDecl inside
      ⟨_, known, rfl, rfl, fun isClass => by cases kind <;> cases isClass⟩
  have hoisted : Establishes p n [] (do hoist ((← get).tree.nearestVariableScope s) decl)
      fun _ L => decl.name ∈ HiddenName.globals ∨ L.Reaches s decl.name :=
    establishes_hoistFrom inside ⟨_, known, rfl, rfl, rfl⟩
  cases kind with
  | var =>
    intro σ many
    refine ⟨fun tidy fresh x τ run => ?_⟩
    obtain ⟨advance, claimed⟩ := (added.andThen hoisted σ many).outcome tidy fresh x τ run
    refine ⟨advance, fun L own upheld => ?_⟩
    obtain ⟨declared, isGlobal | reached⟩ := claimed L own upheld
    · have here := advance.le.lt_size (Nat.lt_of_lt_of_le inside many)
      exact upheld.reaches_of_nearest here (declared isGlobal)
    · exact reached
  | «let» => exact added.imp fun _ L _ declared => L.reaches_of_bound declared
  | const => exact added.imp fun _ L _ declared => L.reaches_of_bound declared

theorem establishes_declareFunction (inside : s < n) (kind : decl.kind = .function)
    (known : Survey.Declares p (· = false) decl) :
    Establishes p n [] (declareFunction s decl) fun _ L => L.HoistsTo s decl.name := by
  have declared : Establishes p n [] (addDecl s decl) fun _ L => L.survey.tree.Declared s decl := by
    obtain ⟨node, mem, id, name, -⟩ := known
    exact establishes_addDecl inside ⟨node, mem, id, name, fun isClass => by
      rw [kind] at isClass
      cases isClass⟩
  refine .get fun σ many => ⟨fun tidy fresh x τ run => ?_⟩
  have here : s < σ.tree.scopes.size := Nat.lt_of_lt_of_le inside many
  obtain ⟨scope, found⟩ := ScopeTree.exists_scope? here
  -- only a block below a function asks for more than that the walk goes on
  have only : ∀ L : Ledger, L.Upholds σ → (scope.kind = .block → ∀ outer : ScopeId,
      scope.parent = some outer → σ.tree.kindIs (· = .function) outer = true →
        L.Reaches outer decl.name) → L.HoistsTo s decl.name := by
    intro L upheld reached outer parent block function
    obtain ⟨scope', found', kind', -, parent'⟩ := upheld.within s scope found
    rw [ScopeTree.parent?, found'] at parent
    have own : scope.parent = some outer := parent'.symm.trans parent
    refine reached ?_ outer own ?_
    · simpa [ScopeTree.kindIs, found', kind'] using block
    · have before : outer < σ.tree.scopes.size := by
        have lower := tidy.raw.ordered s outer (by rw [ScopeTree.parent?, found]; exact own)
        exact Nat.lt_trans lower here
      rw [← upheld.within.kindIs before]
      exact function
  -- a declaration beside a block's own binds no outer name
  have beside : scope.kind ≠ .block → ∀ m : Walk Unit, σ.Establishes p [] m (fun _ _ => True) →
      m.run σ = .ok (x, τ) →
      σ.Advances p [] τ ∧ ∀ L : Ledger, L.program = p → L.Upholds τ → L.HoistsTo s decl.name := by
    intro other m step run
    obtain ⟨advance, -⟩ := step.outcome tidy fresh x τ run
    exact ⟨advance, fun L _ upheld => only L (upheld.mono advance.le) fun block =>
      absurd block other⟩
  have atRoot : σ.tree.isVariableScope s = true →
      σ.Establishes p [] (do hoist s decl; addDecl s decl) fun _ _ => True := fun isVariable =>
    ((establishes_hoist here isVariable known).bind fun _ _ _ advance =>
      declared _ (Nat.le_trans many advance.le.size_le)).imp fun _ _ _ _ => trivial
  have kinds : ∀ k, scope.kind = k → σ.tree.isVariableScope s = k.isVariableScope := by
    rintro k rfl
    simp [ScopeTree.isVariableScope, ScopeTree.kindIs, found]
  dsimp only at run
  rw [found] at run
  dsimp only at run
  cases own : scope.kind with
  | global =>
    rw [own] at run
    exact beside (by simp [own]) _ (atRoot (kinds _ own)) run
  | esModule =>
    rw [own] at run
    exact beside (by simp [own]) _ (atRoot (kinds _ own)) run
  | function =>
    rw [own] at run
    exact beside (by simp [own]) _ ((declared σ many).imp fun _ _ _ _ => trivial) run
  | loop =>
    rw [own] at run
    exact beside (by simp [own]) _ ((declared σ many).imp fun _ _ _ _ => trivial) run
  | block =>
    rw [own] at run
    dsimp only at run
    split_ifs at run with body
    · have outside : σ.tree.nearestVariableScope s < σ.tree.scopes.size :=
        Nat.lt_of_le_of_lt (ScopeTree.nearest_le tidy.raw.ordered _ s) here
      obtain ⟨advance, bound⟩ :=
        (establishes_addHoisted outside (tidy.raw.isVariableScope_nearest here) known).outcome tidy
          fresh x τ run
      refine ⟨advance, fun L own' upheld => ?_⟩
      refine only L (upheld.mono advance.le) fun _ outer parent function => ?_
      have nearest : σ.tree.nearestVariableScope s = outer := by
        have above : σ.tree.parent? s = some outer := by
          rw [ScopeTree.parent?, found]
          exact parent
        rw [ScopeTree.nearestVariableScope,
          ScopeTree.nearest_of_parent tidy.raw.ordered above (kinds _ own)]
        exact ScopeTree.nearest_of_self (ScopeTree.isVariableScope_of_function function)
      rw [← nearest]
      exact L.reaches_of_bound (bound L own' upheld)
    · obtain ⟨advance, -⟩ := (declared σ many).outcome tidy fresh x τ run
      refine ⟨advance, fun L _ upheld => ?_⟩
      refine only L (upheld.mono advance.le) fun _ outer parent function => ?_
      rw [parent] at body
      exact absurd function (by simpa using body)

/-! ## Modules -/

theorem establishes_modifyRecord (position : Position) (f : ModuleRecord → ModuleRecord) :
    Establishes p n [] (modifyRecord position f) fun _ _ => True := by
  refine .get fun σ many => ?_
  split
  · refine ⟨fun tidy _ x τ run => ?_⟩
    cases run
    exact ⟨.note tidy _ _ _ _ _, fun _ _ _ => trivial⟩
  · exact Establishes.throw σ many

theorem establishes_isModuleRoot (s : ScopeId) :
    Establishes p n [] (isModuleRoot s) fun _ _ => True :=
  .get fun σ many => Establishes.pure (fun _ => trivial) σ many

theorem establishes_requireModuleRoot (s : ScopeId) (construct : String) (position : Position) :
    Establishes p n [] (requireModuleRoot s construct position) fun _ _ => True := by
  have whole := (establishes_isModuleRoot (p := p) (n := n) s).bind fun isRoot =>
    (show Establishes p n []
        (if (!isRoot) = true then throw (.unsupported construct position) else Pure.pure ())
        (fun _ _ => True) by
      split
      · exact .throw
      · exact .pure fun _ => trivial)
  exact whole.imp fun _ _ _ _ => trivial

theorem establishes_exportDeclaration (s : ScopeId) (name : Option String) (kind : ExportKind)
    (position : Position) :
    Establishes p n [] (exportDeclaration s name kind position) fun _ _ => True := by
  have tables : ∀ m : Walk Unit, Establishes p n [] m (fun _ _ => True) →
      Establishes p n [] (do
        if !(← isModuleRoot s) then throw (.unsupported "export outside of a module" position)
        m) fun _ _ => True := by
    intro m h
    refine ((establishes_isModuleRoot s).bind (d := fun _ _ _ => True) fun isRoot => ?_).imp
      fun _ _ _ _ => trivial
    dsimp only
    split
    · exact .throw
    · exact h
  cases kind with
  | none => exact .pure fun _ => trivial
  | named =>
    cases name with
    | none => exact tables _ .throw
    | some name => exact tables _ (establishes_modifyRecord position _)
  | default => exact tables _ (establishes_modifyRecord position _)

theorem establishes_addExport (declaration : ExportDeclaration) (position : Position) :
    Establishes p n [] (addExport declaration position) fun _ _ => True := by
  unfold addExport
  split
  · exact establishes_modifyRecord position _
  · exact establishes_modifyRecord position _
  · exact .modify (fun _ tidy _ => .note tidy _ _ _ _ _) fun _ _ _ _ _ _ => trivial
  · exact .throw

theorem establishes_addImport
    (inside : s < n) {declaration : ImportDeclaration} (position : Position)
    (known : ∀ node ∈ declaration.nodes, node ∈ p.nodes) :
    Establishes p n [] (addImport s declaration position) fun _ _ => True := by
  have each : ∀ decl ∈ importDecls declaration, Establishes p n [] (addDecl s decl) fun _ _ =>
      True := by
    intro decl mem
    have own : ∃ node ∈ declaration.nodes, node.id = decl.node ∧ node.name = decl.name ∧
        decl.kind = .const := by
      unfold importDecls at mem
      unfold ImportDeclaration.nodes
      rw [List.mem_append, List.mem_append, List.mem_map, List.mem_map, List.mem_map] at mem
      obtain (⟨binding, mem, rfl⟩ | ⟨binding, mem, rfl⟩) | ⟨specifier, mem, rfl⟩ := mem
      · exact ⟨.ofIdentifier binding, List.mem_append_left _
          (List.mem_append_left _ (List.mem_map_of_mem mem)), rfl, rfl, rfl⟩
      · exact ⟨.ofIdentifier binding, List.mem_append_left _
          (List.mem_append_right _ (List.mem_map_of_mem mem)), rfl, rfl, rfl⟩
      · exact ⟨_, List.mem_append_right _ (List.mem_map_of_mem mem), rfl, rfl, rfl⟩
    obtain ⟨node, mem', id, name, kind⟩ := own
    refine (establishes_addDecl inside ⟨node, known node mem', id, name, fun isClass => ?_⟩).imp
      fun _ _ _ _ => trivial
    rw [kind] at isClass
    cases isClass
  exact ((establishes_modifyRecord position _).andThen (.forM each)).imp fun _ _ _ _ => trivial

end Walk

end AccScript
