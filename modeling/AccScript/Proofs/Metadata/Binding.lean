import AccScript.Analysis
import AccScript.Proofs.Survey.Walk
import AccScript.Proofs.Scope.Untyped

/-!
# Analysis without types

Variables are bound the same way whatever their types are, and types are the only thing that the
analysis takes from a type table and from the record of derived nodes.  So the analysis of a program
ends, up to types, where that of its bare program ends without any type table.
-/

namespace AccScript

namespace Survey

/-- A survey whose variables have no types. -/
def untyped (survey : Survey) : Survey :=
  { survey with tree := survey.tree.untyped }

variable (survey : Survey)

@[simp] theorem tree_untyped : survey.untyped.tree = survey.tree.untyped := rfl

/-- A change of a variable that leaves its type alone, or is about to forget it. -/
theorem untyped_modifyVariable (tree : ScopeTree) (v : VariableId) {f g : Variable → Variable}
    (same : ∀ data, (f data).untyped = g data.untyped) :
    { survey.untyped with tree := tree.untyped.modifyVariable v g } =
      ({ survey with tree := tree.modifyVariable v f } : Survey).untyped := by
  simp only [untyped, tree.untyped_modifyVariable v same]

/-! ## Parameters -/

theorem untyped_addParameter (scope : ScopeId) (name : String) (kind : VarKind)
    (isImplicit isVisible : Bool) :
    survey.untyped.addParameter scope name kind isImplicit isVisible =
      (survey.addParameter scope name kind isImplicit isVisible).untyped := by
  simp only [addParameter, untyped, ScopeTree.untyped_addParameter]

theorem untyped_foldl {ι : Type} {f : Survey → ι → Survey}
    (step : ∀ survey i, f (untyped survey) i = (f survey i).untyped) (items : List ι) :
    items.foldl f survey.untyped = (items.foldl f survey).untyped := by
  induction items generalizing survey with
  | nil => rfl
  | cons i rest ih => rw [List.foldl_cons, List.foldl_cons, step, ih]

theorem untyped_bindParameter (scope : ScopeId) (index : Nat) (names : ParameterNames) :
    survey.untyped.bindParameter scope index names =
      (survey.bindParameter scope index names).untyped := by
  cases names with
  | single name => exact untyped_addParameter survey scope name .var false true
  | pattern names =>
    have fold (t : ScopeTree) :
        names.foldl (fun t name => (t.add scope name .var .notModule).2) t.untyped =
          (names.foldl (fun t name => (t.add scope name .var .notModule).2) t).untyped := by
      induction names generalizing t with
      | nil => rfl
      | cons name rest ih => rw [List.foldl_cons, List.foldl_cons, ScopeTree.untyped_add, ih]
    simp only [bindParameter, untyped_addParameter, tree_untyped, fold]
    rfl

theorem untyped_bindFunctionParameters (options : Options) (scope : ScopeId)
    (facts : FunctionFacts) :
    survey.untyped.bindFunctionParameters options scope facts =
      (survey.bindFunctionParameters options scope facts).untyped := by
  have fold := untyped_foldl survey
    (f := fun survey i => survey.bindParameter scope i.2 i.1)
    (fun survey i => untyped_bindParameter survey scope i.2 i.1) facts.parameters.zipIdx
  have binds (survey : Survey) :
      survey.untyped.bindsArguments scope options = survey.bindsArguments scope options := rfl
  simp only [bindFunctionParameters, fold, binds]
  split
  · simp only [tree_untyped, ScopeTree.untyped_add]
    apply untyped_modifyVariable
    exact fun _ => rfl
  · rfl

theorem untyped_bindParameters (options : Options) (id : ScopeId) (scope : Scope) :
    survey.untyped.bindParameters options id scope =
      (survey.bindParameters options id scope).map untyped := by
  have hidden := untyped_foldl survey
    (f := fun survey name => survey.addParameter id name .const true (!scope.isArrowFunction))
    (fun survey name => untyped_addParameter survey id name .const true (!scope.isArrowFunction))
    [HiddenName.funcObj, HiddenName.newTarget, HiddenName.this]
  have commonjs (survey : Survey) := untyped_foldl survey
    (f := fun survey name => survey.addParameter id name .let false true)
    (fun survey name => untyped_addParameter survey id name .let false true) HiddenName.commonjs
  simp only [bindParameters, hidden]
  split
  · simp only [commonjs]
    split <;> rfl
  · generalize List.foldl _ survey _ = survey
    rw [show survey.untyped.functions = survey.functions from rfl]
    cases survey.functions.get? scope.node with
    | none => rfl
    | some facts => exact congrArg Except.ok (untyped_bindFunctionParameters survey options id facts)
  · rfl

/-! ## Declarations -/

/-- The other survey is this one without its types. -/
def IsTyping (survey survey' : Survey) : Prop :=
  survey' = survey.untyped

abbrev noTypes : NodeId → Nat :=
  fun _ => 0

theorem agrees_addVariable (typeOf : NodeId → Nat) (scope : ScopeId) (decl : Decl) (kind : VarKind) :
    Agrees (fun x y => y = (x.1, x.2.untyped)) (survey.addVariable typeOf scope decl kind)
      (survey.untyped.addVariable noTypes scope decl kind) := by
  simp only [addVariable, tree_untyped, ScopeTree.untyped_add]
  generalize survey.tree.add scope decl.name kind decl.role = added
  obtain ⟨v, tree⟩ := added
  simp only [ScopeTree.var?_untyped]
  cases tree.var? v with
  | none => exact .error rfl
  | some data =>
    show Agrees _ (survey.declaredStorage decl data.storage >>= _)
      (survey.untyped.declaredStorage decl data.storage >>= _)
    refine (Agrees.refl (survey.declaredStorage decl data.storage)).bind ?_
    rintro storage _ rfl
    refine .ok (congrArg (Prod.mk v) ?_)
    apply untyped_modifyVariable
    exact fun _ => rfl

theorem agrees_bindVariable (typeOf : NodeId → Nat) (scope : ScopeId) (decl : Decl)
    (kind : VarKind) :
    Agrees IsTyping (do return (← survey.addVariable typeOf scope decl kind).2)
      (do return (← survey.untyped.addVariable noTypes scope decl kind).2) := by
  refine (agrees_addVariable survey typeOf scope decl kind).bind ?_
  rintro ⟨v, survey⟩ _ rfl
  exact .ok rfl

theorem agrees_bindHoisted (typeOf : NodeId → Nat) (scope : ScopeId) (decl : Decl) :
    Agrees IsTyping (survey.bindHoisted typeOf scope decl)
      (survey.untyped.bindHoisted noTypes scope decl) := by
  unfold bindHoisted
  cases decl.kind with
  | var => exact agrees_bindVariable survey typeOf scope decl .var
  | function => exact agrees_bindVariable survey typeOf scope decl .function
  | _ => exact .error rfl

theorem agrees_bindDecl (typeOf : NodeId → Nat) (scope : ScopeId) (decl : Decl) :
    Agrees IsTyping (survey.bindDecl typeOf scope decl)
      (survey.untyped.bindDecl noTypes scope decl) := by
  unfold bindDecl
  cases decl.kind with
  | «let» => exact agrees_bindVariable survey typeOf scope decl .let
  | catchParameter => exact agrees_bindVariable survey typeOf scope decl .let
  | function => exact agrees_bindVariable survey typeOf scope decl .function
  | const =>
    refine (agrees_addVariable survey typeOf scope decl .const).bind ?_
    rintro ⟨v, survey⟩ _ rfl
    have keys : survey.untyped.computedFieldKeys = survey.computedFieldKeys := rfl
    simp only [keys]
    split
    · refine .ok ?_
      apply untyped_modifyVariable
      exact fun _ => rfl
    · exact .ok rfl
  | cls =>
    cases decl.isExpression with
    | true =>
      refine (Agrees.refl (survey.scopeOf decl.node)).bind ?_
      rintro target _ rfl
      exact agrees_bindVariable survey typeOf target decl .cls
    | false => exact agrees_bindVariable survey typeOf scope decl .cls
  | var =>
    cases HiddenName.globals.contains decl.name with
    | true => exact agrees_bindVariable survey typeOf scope decl .var
    | false => exact .ok rfl

theorem agrees_bindDecls (typeOf : NodeId → Nat) (id : ScopeId) (hoisted decls : List Decl)
    {survey survey' : Survey} (typing : survey.IsTyping survey') :
    Agrees IsTyping
      (do
        let survey ← hoisted.foldlM (fun survey decl => survey.bindHoisted typeOf id decl) survey
        decls.foldlM (fun survey decl => survey.bindDecl typeOf id decl) survey)
      (do
        let survey ← hoisted.foldlM (fun survey decl => survey.bindHoisted noTypes id decl) survey'
        decls.foldlM (fun survey decl => survey.bindDecl noTypes id decl) survey) := by
  refine Agrees.bind (R := IsTyping) (.foldlM ?_ _ typing) fun survey survey' typing => ?_
  · rintro survey _ decl rfl
    exact agrees_bindHoisted survey typeOf id decl
  · refine .foldlM ?_ _ typing
    rintro survey _ decl rfl
    exact agrees_bindDecl survey typeOf id decl

theorem agrees_bindScope (options : Options) (typeOf : NodeId → Nat) (id : ScopeId) :
    Agrees IsTyping (bindScope options typeOf survey id)
      (bindScope options noTypes survey.untyped id) := by
  refine (Agrees.refl (orBroken (survey.tree.scope? id))).bind ?_
  rintro scope _ rfl
  cases scope.kind.isVariableScope with
  | true =>
    refine Agrees.bind ?_ fun _ _ typing => agrees_bindDecls typeOf id _ _ typing
    show Agrees _ _ (survey.untyped.bindParameters options id scope)
    rw [untyped_bindParameters]
    cases survey.bindParameters options id scope with
    | ok survey => exact .ok rfl
    | error failure => exact .error rfl
  | false => exact agrees_bindDecls typeOf id _ _ rfl

theorem agrees_bind (p : Program) (options : Options) (types : TypeTable) :
    Agrees IsTyping (survey.bind p options types)
      (survey.untyped.bind p.bare options fun _ => none) := by
  refine .foldlM ?_ _ rfl
  rintro survey _ id rfl
  exact agrees_bindScope survey options _ id

/-! ## The whole analysis -/

/-- The analysis of a bare program, without types. -/
def analyzeUntyped (p : Program) (options : Options) : Except Failure Survey := do
  match options.validate with
  | .ok _ => pure ()
  | .error e => throw (.error e)
  let survey ← ofProgram p options
  let survey ← survey.untyped.bind p options fun _ => none
  return survey.resolveReferences options

theorem agrees_analyze (p : Program) (options : Options) (types : TypeTable) :
    Agrees IsTyping (analyze p options types) (analyzeUntyped p.bare options) := by
  unfold analyze analyzeUntyped
  cases options.validate with
  | error e => exact .error rfl
  | ok _ =>
    refine (agrees_ofProgram p options).bind ?_
    rintro survey _ rfl
    refine (agrees_bind survey p options types).bind ?_
    rintro survey _ rfl
    refine .ok ?_
    rw [IsTyping, resolveReferences, tree_untyped, ScopeTree.untyped_resolveReferences]
    rfl

end Survey

end AccScript
