import AccScript.Proofs.Judgement.Statement

/-!
# Prologues of units

What a unit does before its statements: it initializes hoisted variables and functions, its own name,
`arguments` and its parameters.  The variables that it declares are those of its own scope.
-/

namespace AccScript

open Asm Lower

/-! ## Parameters -/

/-- A parameter whose names are reached from the scope of the unit. -/
structure Parameter.IsSurveyed (L : Ledger) (s : ScopeId) (p : Parameter) : Prop where
  reaches : L.surveyed → L.ReachesAll s p.target.boundNames
  target : p.target.Surveyed L s
  default : Expr.SurveyedOption L s p.default

theorem Parameter.SurveyedList.of_mem {L : Ledger} {s : ScopeId} {parameters : List Parameter}
    (h : Parameter.SurveyedList L s parameters)
    (reaches : L.surveyed → L.ReachesAll s (parameters.flatMap fun p => p.target.boundNames)) :
    ∀ p ∈ parameters, p.IsSurveyed L s := by
  induction parameters with
  | nil => nofun
  | cons first rest ih =>
    obtain ⟨position, target, default, isRest⟩ := first
    obtain ⟨targets, defaults, others⟩ := h
    refine List.forall_mem_cons.mpr ⟨⟨?_, targets, defaults⟩, ih others ?_⟩
    · exact fun known name mem => reaches known name (List.mem_append_left _ mem)
    · exact fun known name mem => reaches known name (List.mem_append_right _ mem)

namespace Judgement

variable {α : Type} {J : Judgement} {env : Env} {σ : Stage} {τ : α → Stage} {v : VariableId}
  {statements : List Statement}

theorem Leads.unitVariableScope {f f' : VariableScope → Lower α}
    (h : ∀ data, env.tree.variableScope? env.functionScope = some data →
      J.Leads env σ (f data) (f' data) τ) :
    J.Leads env σ (Lower.unitVariableScope >>= f) (Lower.unitVariableScope >>= f') τ := by
  rw [Lower.unitVariableScope, bind_assoc, bind_assoc]
  refine J.consult fun finalizers fieldInit => .required (R := Eq) ?_ ?_
  · have same : (env.recast finalizers fieldInit).tree.variableScope? env.functionScope =
        env.tree.variableScope? env.functionScope := env.tree.variableScope?_untyped _
    show Option.Rel Eq _ ((env.recast finalizers fieldInit).tree.variableScope? env.functionScope)
    rw [same]
    cases env.tree.variableScope? env.functionScope with
    | none => exact .none
    | some data => exact .some rfl
  · rintro data _ found rfl
    exact h data found

/-- What the unit's own scope binds. -/
theorem Leads.ownVariable? (name : String) {f f' : Option (VariableId × Variable) → Lower α}
    (absent : J.Leads env σ (f none) (f' none) τ)
    (found : ∀ v data, env.tree.findLocal? env.functionScope name = some v →
      J.Leads env σ (f (some (v, data))) (f' (some (v, data.untyped))) τ) :
    J.Leads env σ (Lower.ownVariable? name >>= f) (Lower.ownVariable? name >>= f') τ := by
  rw [Lower.ownVariable?, bind_assoc, bind_assoc]
  refine J.consult fun finalizers fieldInit => ?_
  have same : (env.recast finalizers fieldInit).tree.findLocal?
      (env.recast finalizers fieldInit).functionScope name =
      env.tree.findLocal? env.functionScope name := env.tree.findLocal?_untyped _ _
  rw [same]
  cases own : env.tree.findLocal? env.functionScope name with
  | none => exact absent
  | some v =>
    show J.Leads env σ ((Lower.variableData v >>= _) >>= f) ((Lower.variableData v >>= _) >>= f') τ
    rw [bind_assoc, bind_assoc]
    exact .variableData fun data _ => found v data own

theorem leads_defaultParameter (finds : J.Finds env (localResolution v)) {default : Expr}
    (h : default.Surveyed J.ledger env.scope) :
    J.Steady env (defaultParameter v default) (defaultParameter v default.bare) :=
  fun _ => does_freshLabel.step fun hasValue =>
    (leads_isUndefined fun _ => steady_loadLocal finds _).then <|
    Does.before (keeps_jump hasValue (by simp [Stage.Knows]) rfl) <| (default.steady_lower h).then <|
    (steady_declareLocal finds).then <| does_label 0 rfl

theorem steady_initializeParameter (finds : J.Finds env (localResolution v)) (index : Nat)
    {p : Parameter} (h : p.IsSurveyed J.ledger env.scope) :
    J.Steady env (initializeParameter index v p) (initializeParameter index v p.bare) := by
  obtain ⟨position, target, default, isRest⟩ := p
  obtain ⟨reaches, targets, defaults⟩ := h
  have value : J.Steady env (parameterValue index v ⟨position, target, default, isRest⟩)
      (parameterValue index v (Parameter.bare ⟨position, target, default, isRest⟩)) := by
    refine fun σ => .ite (fun _ => ?_) fun _ => ?_
    · exact Does.before (keeps_plain rfl rfl) <| steady_declareLocal finds σ
    · cases default with
      | none => exact Steady.pure () σ
      | some default => exact leads_defaultParameter finds defaults σ
  refine fun σ => (does_atPosition position).before <| value.then ?_
  cases target with
  | identifier _ => exact Steady.pure () σ
  | pattern pattern =>
    exact does_getTemp.step fun register => (steady_loadLocal finds).then <|
      (keeps_sta (by simp)).before <|
      (pattern.uses_lower .declare targets reaches register _ (by simp)).then <|
      does_freeTemps 1 (.refl _)

theorem steady_initializeParametersFrom (index : Nat) {ids : List VariableId}
    (finds : ∀ v ∈ ids, J.Finds env (localResolution v)) {parameters : List Parameter}
    (h : ∀ p ∈ parameters, p.IsSurveyed J.ledger env.scope) :
    J.Steady env (initializeParametersFrom index (ids.zip parameters))
      (initializeParametersFrom index (ids.zip (parameters.map .bare))) := by
  intro σ
  induction parameters generalizing index ids with
  | nil => cases ids <;> exact Steady.pure () σ
  | cons p rest ih =>
    cases ids with
    | nil => exact Steady.pure () σ
    | cons v others =>
      obtain ⟨first, following⟩ := List.forall_mem_cons.mp finds
      obtain ⟨surveyed, remaining⟩ := List.forall_mem_cons.mp h
      exact (steady_initializeParameter first index surveyed).then <| ih (index + 1) following remaining

/-- A unit binds as many parameters as it declares, unless the failure is accounted for. -/
theorem steady_initializeParameters {parameters : List Parameter}
    (own : ∀ data, env.tree.variableScope? env.functionScope = some data →
      (∀ v ∈ data.parameters, J.Finds env (localResolution v)) ∧
      (data.parameters.length < parameters.length →
        J.Steady env (throw (.internal "function has fewer bound parameters than declared") : Lower Unit)
          (throw (.internal "function has fewer bound parameters than declared"))))
    (h : ∀ p ∈ parameters, p.IsSurveyed J.ledger env.scope) :
    J.Steady env (initializeParameters parameters) (initializeParameters (parameters.map .bare)) := by
  unfold initializeParameters
  rw [List.length_map]
  refine fun σ => .unitVariableScope fun data found => .ite (fun few => (own data found).2 few σ) fun _ => ?_
  exact steady_initializeParametersFrom 0
    (fun v mem => (own data found).1 v (List.mem_of_mem_drop mem)) h σ

theorem steady_forwardArguments
    (own : ∀ data, env.tree.variableScope? env.functionScope = some data →
      ∀ v ∈ data.parameters, J.Finds env (localResolution v))
    (function : J.Sees env HiddenName.funcObj) (this : J.Sees env HiddenName.this) :
    J.Steady env forwardArguments forwardArguments := by
  refine fun σ => .unitVariableScope fun data found => ?_
  cases last : data.parameters.getLast? with
  | none => exact J.fail ⟨Failure.not_blames_internal (c := 'd') (by simp) rfl, .noRest⟩ rfl
  | some rest =>
    have finds := own data found rest (List.mem_of_getLast? last)
    have both (arguments index : Register) : [index, arguments].Perm [arguments, index] := .swap _ _ _
    exact Does.before (keeps_plain rfl rfl) <| (steady_declareLocal finds).then <|
      does_getTemp.step fun arguments => does_getTemp.step fun index =>
      Does.before (keeps_plain rfl rfl) <| (keeps_sta (by simp)).before <| (keeps_loadNat 0).before <|
      (keeps_sta (by simp)).before <| (steady_loadLocal finds).then <|
      Does.before (keeps_emit [arguments, index] (by simp) rfl rfl) <|
      (leads_superSpread function (by simp)).then <|
      Does.before (does_freeTemps (σ := (σ.hold [arguments]).hold [index]) 2 (both _ _)) <|
      steady_bindSuperResult this σ

/-! ## Hoisting -/

section Hoisting

variable (names : ∀ name v, env.tree.findLocal? env.functionScope name = some v →
  J.Finds env (resolveName name))

include names in
theorem steady_initializeVar (isGlobal : Bool) (decl : Decl) :
    J.Steady env (initializeVar isGlobal decl) (initializeVar isGlobal decl) := by
  refine fun σ => .ite (fun _ => .ownVariable? decl.name (Steady.pure () σ) fun v data found => ?_)
    fun _ => Steady.pure () σ
  refine .ite (fun _ => (keeps_constant _).before ?_) fun _ => Steady.pure () σ
  exact .ite (fun _ => keeps_globalAccess _ _) fun _ => steady_storeVariable true (names _ v found) σ

/-- A function declaration that can be defined at the top of a unit. -/
def Hoists (J : Judgement) (env : Env) (statement : Statement) : Prop :=
  ∀ f exportKind, statement.kind = .functionDecl f exportKind → J.Hosts env f ∧
    ∀ name, declaredName? f.name exportKind = some name → J.Finds env (resolveName name)

theorem steady_hoistFunction {statement : Statement} (h : J.Hoists env statement) :
    J.Steady env (hoistFunction statement) (hoistFunction statement.bare) := by
  obtain ⟨id, position, kind⟩ := statement
  intro σ
  cases kind with
  | functionDecl f exportKind =>
    obtain ⟨hosts, finds⟩ := h f exportKind rfl
    simp only [Statement.bare, StatementKind.bare, hoistFunction, FunctionNode.name_bare]
    cases declared : declaredName? f.name exportKind with
    | none => exact Steady.pure () σ
    | some name => exact steady_bindFunction hosts (finds name declared) position σ
  | _ => exact Steady.pure () σ

include names in
theorem steady_hoistDeclarations (h : ∀ statement ∈ statements, J.Hoists env statement) :
    J.Steady env (hoistDeclarations statements) (hoistDeclarations (statements.map .bare)) := by
  refine fun σ => J.consult fun finalizers fieldInit => .unitVariableScope fun data _ => ?_
  have same : (env.recast finalizers fieldInit).tree.kindIs (· = .global) env.functionScope =
      env.tree.kindIs (· = .global) env.functionScope := env.tree.kindIs_untyped _ _
  show J.Leads env σ _ (Lower.sequence (data.hoisted.map (initializeVar
    ((env.recast finalizers fieldInit).tree.kindIs (· = .global) env.functionScope))) >>= _) fun _ => σ
  rw [same]
  have vars : J.Steady env (Lower.sequence (data.hoisted.map _)) _ := .each (g := id) fun decl _ =>
    steady_initializeVar names (env.tree.kindIs (· = .global) env.functionScope) decl
  rw [List.map_id] at vars
  have functions : J.Steady env (Lower.sequence (statements.map hoistFunction)) _ :=
    .each fun statement mem => steady_hoistFunction (h statement mem)
  exact vars.then <| functions σ

theorem steady_bindNamespaces (finds : ∀ name, J.Finds env (resolveName name)) (index : Nat)
    (entries : List NamespaceImport) :
    J.Steady env (bindNamespaces index entries) (bindNamespaces index entries) := by
  intro σ
  induction entries generalizing index with
  | nil => exact Steady.pure () σ
  | cons entry rest ih =>
    exact Does.before (keeps_plain rfl rfl) <|
      (steady_storeVariable true (finds entry.localName)).then <| ih (index + 1)

end Hoisting

/-! ## Names of the unit -/

section Own

variable (own : ∀ name v, env.tree.findLocal? env.functionScope name = some v →
  J.Finds env (localResolution v))

include own

theorem steady_bindOwnName (f : FunctionNode)
    (object : f.isExpression = true → J.Finds env (resolveName HiddenName.funcObj)) :
    J.Steady env (bindOwnName f) (bindOwnName f.bare) := by
  unfold bindOwnName
  rw [FunctionNode.isExpression_bare, FunctionNode.name_bare]
  intro σ
  split
  · rename_i isExpression _
    refine .ownVariable? _ (Steady.pure () σ) fun v data found => .ite (fun _ => ?_) fun _ =>
      Steady.pure () σ
    exact (steady_loadVariable (object isExpression)).then <| steady_declareLocal (own _ v found) σ
  · exact Steady.pure () σ

theorem steady_bindArguments : J.Steady env bindArguments bindArguments := by
  refine fun σ => .ownVariable? _ (Steady.pure () σ) fun v data found => .ite (fun _ => ?_) fun _ =>
    Steady.pure () σ
  exact Does.before (keeps_plain rfl rfl) <| steady_declareLocal (own _ v found) σ

end Own

end Judgement

end AccScript
