import AccScript.Proofs.Metadata.Statement

/-!
# The echo of units

The prologue of a unit, its body, and what follows its last statement.  The parameters of a unit are
ready from the start.
-/

namespace AccScript

open Asm Lower

variable {β : Type} {E : VariableId → Prop} {Γ : List Resource} {out : β → List Resource}
  {parameters : List VariableId} (f : FunctionNode) (owner : Option ClassNode)

/-! ## The prologue -/

theorem Echo.ready {m m' : Asm β} {v : VariableId} (exempt : E v) (h : Echo E (.ready v :: Γ) m m' out) :
    Echo E Γ m m' out :=
  fun a given => h a (List.forall_mem_cons.mpr ⟨.inr exempt, given⟩)

theorem resounds_copyCaptured {v : VariableId} (exempt : E v) :
    Resonates E (copyCaptured v) := by
  refine fun Γ => .variableData v fun data _ => ?_
  rw [show data.untyped.slot = data.slot from rfl]
  cases data.slot with
  | none => exact .done
  | some slot =>
    have load : Echoes E Γ (do lda (← registerFor v) : Lower Unit) (do lda (← registerFor v)) :=
      fun _ _ _ _ _ => .ready exempt (echo_loadRegister (.head _))
    have copy := load.then <| echoes_plainAt (i := .stLexVar 0 slot) (.variable v) rfl
    rw [bind_assoc] at copy
    exact copy

theorem echoes_bindEach (exempt : ∀ v ∈ parameters, E v) :
    OwnEchoes E Γ (parameters.forM fun v => do let _ ← bindParameter v : Lower Unit) := by
  induction parameters with
  | nil => exact .done
  | cons v rest ih =>
    obtain ⟨first, others⟩ := List.forall_mem_cons.mp exempt
    exact .seq ((echo_bindParameter first).before .done) fun _ => ih others

theorem resounds_copyEach (exempt : ∀ v ∈ parameters, E v) :
    Resonates E (Lower.sequence (parameters.map copyCaptured)) := by
  refine .sequence ?_
  induction parameters with
  | nil => exact .nil
  | cons v rest ih =>
    obtain ⟨first, others⟩ := List.forall_mem_cons.mp exempt
    exact .cons (resounds_copyCaptured first) (ih others)

theorem resounds_bindParameters : Resonates E bindParameters := by
  refine fun Γ => .read fun env _ _ _ => .unitVariableScope fun data exempt =>
    (echoes_bindEach exempt).then <| .ask (orBroken (env.tree.scope? env.functionScope)) fun scope => ?_
  cases scope.env.filter LexicalEnv.isNeeded with
  | some slots =>
    exact (resounds_enterEnvironment env.functionScope slots.slotNames).then <|
      resounds_copyEach exempt Γ
  | none => exact resounds_copyEach exempt Γ

theorem resounds_hoistDeclarations (statements : List Statement) :
    Resounds E (hoistDeclarations statements) (hoistDeclarations (statements.map .bare)) :=
  .of_steady fun _ => Judgement.steady_hoistDeclarations (fun _ _ _ => resounds_resolveName _)
    fun _ _ _ _ _ => ⟨trivial, fun _ _ => resounds_resolveName _⟩

/-! ## Bodies -/

theorem resounds_topStatement (statement : Statement) :
    Resounds E (topStatement statement) (topStatement statement.bare) :=
  fun _ => statement.resounds_lower.then <| .inspect fun _ =>
    .ite (fun _ => .throw rfl) fun _ => .done

theorem resounds_topStatements (statements : List Statement) :
    Resounds E (topStatements statements) (topStatements (statements.map .bare)) :=
  .sequence (Resounds.each resounds_topStatement statements)

theorem resounds_returnThis : Resonates E returnThis := by
  refine fun Γ => (resounds_loadVariable _).then <| .read fun env _ _ _ => ?_
  rw [inDerivedConstructor_recast]
  exact .ite (fun _ => (echo_plain rfl).before <| (echo_plain rfl).lift) fun _ =>
    (echo_plain rfl).lift

theorem resounds_fallOff (kind : FunctionKind) : Resonates E (fallOff kind) :=
  fun Γ => echo_isTerminated.next fun _ => .ite (fun _ => .ite (fun _ => resounds_returnThis Γ) fun _ =>
    (echo_plain rfl).lift) fun _ => .done

theorem resounds_unitFrame {code code' : Lower Unit} (h : Resounds E code code') :
    Resounds E (unitFrame code) (unitFrame code') :=
  fun _ => (echo_setOrigin .functionStart).before <| resounds_bindParameters.then <|
    .read fun env _ _ _ => (echo_enterScope env.functionScope).before <| h.then <|
    echo_exitScope.lift

theorem resounds_programBody (p : Program) :
    Resounds E (programBody p) (programBody p.bare) := by
  refine fun Γ => .read fun env _ _ _ => ?_
  have rest : Echoes E Γ (do
      hoistDeclarations p.statements
      topStatements p.statements
      if !(← isTerminated) then emit .returnUndefined : Lower Unit) (do
      hoistDeclarations p.bare.statements
      topStatements p.bare.statements
      if !(← isTerminated) then emit .returnUndefined) := by
    have same : p.bare.statements = p.statements.map .bare := Statement.bareList_eq p.statements
    rw [same]
    exact (resounds_hoistDeclarations _).then <| (resounds_topStatements _).then <|
      echo_isTerminated.next fun _ => .ite (fun _ => (echo_plain rfl).lift) fun _ => .done
  dsimp only [Env.recast, Survey.untyped]
  cases env.survey.moduleRecord with
  | none => exact rest
  | some record =>
    have binds : Resonates E (bindNamespaces 0 record.namespaceImports) := .of_steady fun _ =>
      Judgement.steady_bindNamespaces (fun _ => resounds_resolveName _) 0 _
    exact binds.then rest

/-! ## Functions -/

theorem resounds_bindOwnName : Resounds E (bindOwnName f) (bindOwnName f.bare) :=
  .of_steady fun _ => Judgement.steady_bindOwnName (fun _ v _ => resounds_localResolution v) f
    fun _ => resounds_resolveName _

theorem resounds_bindArguments : Resonates E bindArguments :=
  .of_steady fun _ => Judgement.steady_bindArguments fun _ v _ => resounds_localResolution v

theorem resounds_initializeParameters (parameters : List Parameter) :
    Resounds E (initializeParameters parameters) (initializeParameters (parameters.map .bare)) :=
  .of_steady fun _ => Judgement.steady_initializeParameters (J := echoing E)
    (fun _ _ => ⟨fun v _ => resounds_localResolution v, fun _ _ _ _ _ _ => .throw rfl⟩) fun p _ =>
    ⟨False.elim, p.target.surveyed_blank _, Expr.surveyedOption_blank _ _⟩

theorem resounds_ownFields :
    Resounds E (ownFields f owner) (ownFields f.bare (owner.map .bare)) := by
  unfold ownFields
  rw [FunctionNode.kind_bare]
  intro Γ
  cases f.kind with
  | constructor =>
    cases owner with
    | none => exact .done
    | some c =>
      refine .read fun env finalizers fieldInit _ => ?_
      show Echoes E Γ _ (if (!env.survey.derivedClasses.contains c.bare.id) = true then _ else _)
      rw [ClassNode.id_bare]
      exact .ite (fun _ => c.resounds_initializeFields Γ) fun _ => .done
  | _ => exact .done

theorem resounds_functionBody :
    Resounds E (functionBody f owner) (functionBody f.bare (owner.map .bare)) := by
  unfold functionBody
  rw [FunctionNode.body_bare, FunctionNode.kind_bare]
  intro Γ
  cases f.body with
  | block block =>
    obtain ⟨id, statements⟩ := block
    have same : Statement.bareList statements = statements.map .bare := Statement.bareList_eq statements
    show Echoes E Γ _ (do
      hoistDeclarations (Statement.bareList statements)
      ownFields f.bare (owner.map .bare)
      inVisibleScope id (topStatements (Statement.bareList statements))
      fallOff f.kind)
    rw [same]
    exact (resounds_hoistDeclarations statements).then <| (resounds_ownFields f owner).then <|
      (resounds_inVisibleScope id (resounds_topStatements statements)).then <|
      resounds_fallOff f.kind Γ
  | expression value => exact value.resounds_lower.then <| (echo_plain rfl).lift

theorem resounds_functionCode :
    Resounds E (functionCode f owner) (functionCode f.bare (owner.map .bare)) := by
  unfold functionCode
  rw [FunctionNode.parameters_bare]
  exact fun Γ => (resounds_bindOwnName f).then <| resounds_bindArguments.then <|
    (resounds_initializeParameters f.parameters).then <| resounds_functionBody f owner Γ

/-! ## Default constructors -/

theorem resounds_forwardArguments : Resonates E forwardArguments :=
  .of_steady fun _ => Judgement.steady_forwardArguments (fun _ _ v _ => resounds_localResolution v)
    False.elim False.elim

theorem resounds_defaultConstructorBody (c : ClassNode) :
    Resounds E (defaultConstructorBody c) (defaultConstructorBody c.bare) := by
  unfold defaultConstructorBody
  rw [ClassNode.isSome_superClass_bare]
  intro Γ
  have position : c.bare.position = .bare := by
    cases c
    rfl
  rw [position]
  exact (echo_atPosition c.position).before <| .ite (fun _ =>
    resounds_forwardArguments.then <| resounds_returnThis Γ) fun _ =>
    (c.resounds_initializeFields).then <| resounds_returnThis Γ

/-! ## Units -/

theorem resounds_unitCode (p : Program) (source : UnitSource) :
    Resounds E (unitCode p source) (unitCode p.bare source.bare) := by
  cases source with
  | program => exact resounds_unitFrame (resounds_programBody p)
  | function f owner isStrict => exact resounds_unitFrame (resounds_functionCode f owner)
  | defaultConstructor owner id => exact resounds_unitFrame (resounds_defaultConstructorBody owner)

theorem echo_fieldInitOf {env env' : Env} (h : env.Matches E Γ env') :
    Echo E Γ (fieldInitOf owner env) (fieldInitOf (owner.map .bare) env') := by
  cases owner with
  | none => exact .done
  | some c =>
    have matched : Env.Matches E Γ { env with fieldInit := throw .unmet }
        { env' with fieldInit := throw .unmet } :=
      { h with
        same := congrArg (fun env : Env => { env with fieldInit := throw Failure.unmet }) h.same
        fieldInit := .throw rfl }
    exact c.resounds_initializeFields Γ Γ _ _ (List.Subset.refl Γ) matched

end AccScript
