import AccScript.Proofs.Judgement.Expression

/-!
# Declarations and pieces of statements

What statements are made of besides control: declarations, the definitions of functions, and the
values that a constructor returns.
-/

namespace AccScript

open Asm Lower

/-! ## Names in sight -/

section Names

variable {name : String} {c : CompileContext} {unit s : ScopeId} {v : VariableId}

theorem ScopeTree.BelongsTo.find?_eq {t : ScopeTree} (h : t.BelongsTo unit s)
    (found : t.findLocal? unit name = some v) : ∃ w, t.find? s name = some (w, false) := by
  obtain ⟨inner, outer, ancestors, passed⟩ := h
  rw [ScopeTree.find?, ancestors]
  clear ancestors
  induction inner with
  | nil => exact ⟨v, by simp [ScopeTree.findIn?, found]⟩
  | cons r rest ih =>
    rw [List.cons_append, ScopeTree.findIn?]
    cases hit : t.findLocal? r name with
    | some w => exact ⟨w, rfl⟩
    | none =>
      rw [passed r List.mem_cons_self]
      exact ih fun r mem => passed r (.tail _ mem)

/-- Only a variable of another function can be missing. -/
theorem CompileContext.reaches_of_find?
    (h : ∀ v crossed, c.survey.tree.find? s name = some (v, crossed) → crossed = false) :
    c.Reaches s name := by
  intro failure failed
  unfold ScopeTree.resolve at failed
  split at failed
  · cases failed
  · rename_i v crossed found
    obtain rfl := h v crossed found
    split at failed
    · cases failed
      rfl
    · split at failed
      · cases failed
      · cases failed
      · split at failed
        · cases failed
        · split at failed
          · cases failed
          · cases failed

theorem ScopeTree.BelongsTo.reaches (h : c.survey.tree.BelongsTo unit s)
    (found : c.survey.tree.findLocal? unit name = some v) : c.Reaches s name := by
  obtain ⟨w, hit⟩ := h.find?_eq found
  refine CompileContext.reaches_of_find? fun v crossed found => ?_
  rw [hit] at found
  cases found
  rfl

theorem ScopeTree.BelongsTo.refl (t : ScopeTree) (s : ScopeId) : t.BelongsTo s s :=
  ⟨[], _, rfl, nofun⟩

end Names

/-! ## Return -/

section Bare

variable (value : Option Expr)

theorem returnsThis_bare : returnsThis (Expr.bare? value) = returnsThis value := by
  cases value with
  | none => rfl
  | some e =>
    obtain ⟨_, kind⟩ := e
    cases kind <;> rfl

theorem isSuperCall_bare : (Expr.bare? value).any Expr.isSuperCall = value.any Expr.isSuperCall := by
  cases value with
  | none => rfl
  | some e =>
    obtain ⟨_, kind⟩ := e
    cases kind <;> rfl

end Bare

namespace Judgement

variable {J : Judgement} {env : Env} {σ : Stage}

theorem steady_valueOrThis {value value' : Lower Unit} (sees : J.Sees env HiddenName.this)
    (h : J.Steady env value value') : J.Steady env (valueOrThis value) (valueOrThis value') :=
  fun _ => does_freshLabel.step fun useValue => does_freshLabel.step fun check => h.then <|
    does_storeTemp.step fun _ => (keeps_constant _).before <| (keeps_binary _ (by simp)).before <|
    Does.before (keeps_jump useValue (by simp [Stage.Knows]) rfl) <| (steady_load sees).then <|
    (keeps_branch (by simp [Stage.Knows])).before <| (does_label 1 rfl).before <|
    (keeps_lda (by simp)).before <| (does_label 0 rfl).before <| Does.before (keeps_plain rfl rfl) <|
    does_freeTemps 1 (.refl _)

theorem steady_derivedReturnValue (value : Option Expr) {code code' : Lower Unit}
    (sees : J.Sees env HiddenName.this) (h : J.Steady env code code') :
    J.Steady env (derivedReturnValue value code) (derivedReturnValue (Expr.bare? value) code') := by
  unfold derivedReturnValue
  rw [returnsThis_bare, isSuperCall_bare]
  exact fun σ => .ite (fun _ => steady_loadThis sees σ) fun _ => .ite (fun _ => h σ) fun _ =>
    steady_valueOrThis sees h σ

/-! ## Functions -/

theorem steady_bindFunction {name : String} {f : FunctionNode} (hosts : J.Hosts env f)
    (finds : J.Finds env (resolveName name)) (position : Position) :
    J.Steady env (bindFunction name f position) (bindFunction name f.bare .bare) :=
  fun σ => (does_atPosition position).before <| Leads.then (J.function hosts) <|
    steady_storeVariable true finds σ

theorem steady_instantiateFunction {statement : Statement}
    (h : statement.Surveyed J.ledger env.scope) :
    J.Steady env (instantiateFunction statement) (instantiateFunction statement.bare) := by
  obtain ⟨id, position, kind⟩ := statement
  intro σ
  cases kind with
  | functionDecl f exportKind =>
    simp only [Statement.bare, StatementKind.bare, instantiateFunction, FunctionNode.name_bare]
    cases f.name with
    | none => exact Steady.pure () σ
    | some identifier =>
      refine J.anchor fun same => J.consult fun finalizers fieldInit => ?_
      have local_bare : (env.recast finalizers fieldInit).tree.findLocal? env.scope identifier.name =
          env.tree.findLocal? env.scope identifier.name := env.tree.findLocal?_untyped _ _
      show J.Leads env σ (ite _ _ _) (ite (((env.recast finalizers fieldInit).tree.findLocal? env.scope
        identifier.name).isSome = true) _ _) fun _ => σ
      rw [local_bare]
      refine .ite (fun bound => ?_) fun _ => Steady.pure () σ
      refine steady_bindFunction (J.hosts h.1) (J.finds fun known => ?_) position σ
      obtain ⟨v, found⟩ := Option.isSome_iff_exists.mp bound
      rw [Env.tree, same known] at found
      exact (ScopeTree.BelongsTo.refl _ _).reaches found
  | _ => exact Steady.pure () σ

theorem Steady.each {α : Type} {f : α → Lower Unit} {g : α → α} {items : List α}
    (h : ∀ x ∈ items, J.Steady env (f x) (f (g x))) :
    J.Steady env (Lower.sequence (items.map f)) (Lower.sequence ((items.map g).map f)) := by
  intro σ
  refine .sequence ?_
  induction items with
  | nil => exact .nil
  | cons x rest ih =>
    obtain ⟨first, others⟩ := List.forall_mem_cons.mp h
    exact .cons (first σ) (ih others)

theorem steady_instantiateFunctions {statements : List Statement}
    (h : ∀ statement ∈ statements, statement.Surveyed J.ledger env.scope) :
    J.Steady env (instantiateFunctions statements) (instantiateFunctions (statements.map .bare)) :=
  .each fun statement mem => steady_instantiateFunction (h statement mem)

end Judgement

/-! ## Declarations -/

open Judgement

variable {J : Judgement} {env : Env}

/-- A declarator whose names are reached. -/
structure Declarator.IsSurveyed (L : Ledger) (s : ScopeId) (d : Declarator) : Prop where
  reaches : L.surveyed → L.ReachesAll s d.target.boundNames
  target : d.target.Surveyed L s
  init : Expr.SurveyedOption L s d.init

theorem Declarator.SurveyedList.of_mem {L : Ledger} {s : ScopeId} {declarators : List Declarator}
    (h : Declarator.SurveyedList L s declarators) : ∀ d ∈ declarators, d.IsSurveyed L s := by
  induction declarators with
  | nil => nofun
  | cons first rest ih =>
    obtain ⟨position, target, init⟩ := first
    obtain ⟨reaches, targets, inits, others⟩ := h
    exact List.forall_mem_cons.mpr ⟨⟨reaches, targets, inits⟩, ih others⟩

theorem Declarator.steady_lower (kind : DeclarationKind) {d : Declarator}
    (h : d.IsSurveyed J.ledger env.scope) : J.Steady env (d.lower kind) (d.bare.lower kind) := by
  obtain ⟨position, target, init⟩ := d
  obtain ⟨reaches, surveyed, inits⟩ := h
  intro σ
  cases target with
  | pattern p =>
    exact (does_atPosition position).before <|
      (Optional.getD (Expr.steady_lower? init inits) fun _ => keeps_constant _).then <|
      steady_onTemp (p.uses_lower .declare surveyed reaches) σ
  | identifier identifier =>
    have declares := steady_store (J := J) true fun known => reaches known identifier (.head _)
    cases init with
    | some init => exact (does_atPosition position).before <| (init.steady_lower inits).then <| declares σ
    | none =>
      refine (does_atPosition position).before <| .ite (fun _ => ?_) fun _ => Steady.pure () σ
      exact (keeps_constant _).before <| declares σ

theorem Declaration.steady_lower {d : Declaration} (h : d.Surveyed J.ledger env.scope) :
    J.Steady env d.lower d.bare.lower := by
  obtain ⟨kind, declarators⟩ := d
  show J.Steady env _ (Lower.sequence ((Declarator.bareList declarators).map (Declarator.lower kind)))
  rw [Declarator.bareList_eq]
  exact .each fun d mem => d.steady_lower kind (Declarator.SurveyedList.of_mem h d mem)

theorem Declarator.uses_lowerIteration {d : Declarator} (h : d.IsSurveyed J.ledger env.scope) :
    J.Uses env (fun value => d.lowerIteration value) fun value => d.bare.lowerIteration value := by
  obtain ⟨position, target, init⟩ := d
  intro value σ own
  cases target with
  | identifier identifier =>
    exact (keeps_lda own).before <| steady_store true (fun known => h.reaches known identifier (.head _)) σ
  | pattern p => exact p.uses_lower .declare h.target h.reaches value σ own

theorem ForHead.steady_lower {head : ForHead} (h : head.Surveyed J.ledger env.scope) :
    J.Steady env head.lower head.bare.lower := by
  cases head with
  | declaration d => exact d.steady_lower h
  | expression value => exact value.steady_lower h

theorem ForHead.uses_lowerIteration {head : ForHead} (h : head.Surveyed J.ledger env.scope) :
    J.Uses env (fun value => head.lowerIteration value) fun value => head.bare.lowerIteration value := by
  intro value σ own
  cases head with
  | expression target => exact leads_storeRegister (target.targets_lowerTarget h) own
  | declaration d =>
    obtain ⟨kind, declarators⟩ := d
    have all := Declarator.SurveyedList.of_mem h
    show J.Leads env σ (Lower.sequence (declarators.map (Declarator.lowerIteration value)))
      (Lower.sequence ((Declarator.bareList declarators).map (Declarator.lowerIteration value))) fun _ => σ
    rw [Declarator.bareList_eq]
    clear h
    refine .sequence ?_
    induction declarators with
    | nil => exact .nil
    | cons d rest ih =>
      obtain ⟨first, others⟩ := List.forall_mem_cons.mp all
      exact .cons (d.uses_lowerIteration first value σ own) (ih others)

theorem Expr.tests_lowerTest {test : Option Expr} (h : Expr.SurveyedOption J.ledger env.scope test) :
    J.Tests env (Expr.lowerTest test) (Expr.lowerTest (Expr.bare? test)) := by
  cases test with
  | none => exact fun _ σ _ => Steady.pure () σ
  | some test => exact test.tests_lowerCondition h

end AccScript
