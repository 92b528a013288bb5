import AccScript.Proofs.Judgement.ClassBody
import AccScript.Proofs.Survey.Unsurveyed

/-!
# Expressions

Every judgement holds of the code of every expression, pattern and class that is surveyed, by
induction on the tree.
-/

namespace AccScript

open Asm Lower Judgement

/-! ## Literals and names -/

theorem Expr.literal?_bare (e : Expr) : e.bare.literal? = e.literal? := by
  obtain ⟨_, kind⟩ := e
  cases kind <;> rfl

theorem Expr.name?_bare (e : Expr) : e.bare.name? = e.name? := by
  obtain ⟨_, kind⟩ := e
  cases kind <;> rfl

theorem arrayLiterals?_bare (elements : List (Option Expr)) :
    arrayLiterals? (Expr.bareElements elements) = arrayLiterals? elements := by
  unfold arrayLiterals?
  induction elements with
  | nil => rfl
  | cons element rest ih =>
    have first : (Expr.bare? element).bind Expr.literal? = element.bind Expr.literal? := by
      cases element with
      | none => rfl
      | some e => exact e.literal?_bare
    show List.mapM _ (Expr.bare? element :: Expr.bareElements rest) = _
    rw [List.mapM_cons, List.mapM_cons, ih, first]

theorem Property.literals?_bare (property : Property) : property.bare.literals? = property.literals? := by
  cases property with
  | keyValue key value =>
    show (do
      let name ← key.bare.literalName?
      let literal ← value.bare.literal?
      if name = "__proto__" then none else some [Literal.string name, literal]) = _
    rw [PropertyKey.literalName?_bare, Expr.literal?_bare]
    rfl
  | _ => rfl

theorem leadingLiterals_bare (properties : List Property) :
    leadingLiterals (Property.bareList properties) = leadingLiterals properties := by
  induction properties with
  | nil => rfl
  | cons property rest ih =>
    show leadingLiterals (property.bare :: Property.bareList rest) = _
    rw [leadingLiterals, leadingLiterals, Property.literals?_bare, ih]

theorem Expr.Surveyed.sees_name? {J : Judgement} {env : Env} {e : Expr}
    (h : e.Surveyed J.ledger env.scope) : ∀ name ∈ e.name?, J.Sees env name := by
  obtain ⟨position, kind⟩ := e
  intro name mem
  unfold Expr.name? at mem
  split at mem
  · rename_i same
    cases mem
    subst same
    exact h
  · cases mem

/-! ## Members of surveyed classes -/

/-- A member of a surveyed class. -/
structure ClassMember.IsSurveyed (L : Ledger) (classScope constructorScope : ScopeId)
    (member : ClassMember) : Prop where
  key : member.key.Surveyed L classScope
  binding : L.surveyed → FieldKeySurveyed L classScope constructorScope member.id
  fieldKey : member.isStatic = false → member.kind.isField = true →
    L.survey.computedFieldKeys.get? member.id = none → member.key.Surveyed L constructorScope
  kind : member.kind.Surveyed L classScope
    (if member.isStatic then classScope else constructorScope)

theorem ClassMember.SurveyedList.of_mem
    {L : Ledger} {classScope constructorScope : ScopeId} {members : List ClassMember}
    (h : ClassMember.SurveyedList L classScope constructorScope members) :
    ∀ member ∈ members, member.IsSurveyed L classScope constructorScope := by
  induction members with
  | nil => simp
  | cons first rest ih =>
    obtain ⟨id, position, key, isStatic, kind⟩ := first
    simp only [ClassMember.SurveyedList] at h
    obtain ⟨keys, binding, fieldKey, kinds, others⟩ := h
    intro member mem
    rcases List.mem_cons.mp mem with rfl | mem
    · exact ⟨keys, binding, fieldKey, kinds⟩
    · exact ih others member mem

/-! ## Trees -/

variable {J : Judgement}

mutual

theorem Expr.steady_lower {env : Env} : (e : Expr) → e.Surveyed J.ledger env.scope →
    J.Steady env e.lower e.bare.lower
  | ⟨position, kind⟩, h => ExprKind.steady_lower kind position h

theorem ExprKind.steady_lower {env : Env} : (kind : ExprKind) → (position : Position) →
    kind.Surveyed J.ledger env.scope → J.Steady env (kind.lower position) (kind.bare.lower .bare)
  | .number value, _, _ => fun _ => keeps_loadNumber value
  | .bigInt literal, _, _ => fun _ => keeps_loadBigInt literal
  | .string value, _, _ => fun _ => keeps_loadString value
  | .boolean _, _, _ => fun _ => keeps_constant _
  | .null, _, _ => fun _ => keeps_constant _
  | .regExp source flags, position, _ => steady_regExp source flags position
  | .template quasis parts, _, h => steady_template (Expr.steady_lowerEach parts h) quasis
  | .taggedTemplate tag quasis rawQuasis parts, _, h =>
      steady_taggedTemplate (Expr.steady_lowerEach parts h.2) (Expr.takes_lowerCallee tag h.1)
        quasis rawQuasis
  | .identifier _, _, h => steady_load h
  | .this, _, h => steady_loadThis h
  | .newTarget, _, h => steady_load h
  | .array elements, _, h =>
      steady_arrayLiteral (Expr.items_lowerElements elements h) (arrayLiterals?_bare elements)
  | .object properties, _, h =>
      steady_objectLiteral (Property.items_lowerEach properties h) (leadingLiterals_bare properties)
  | .member object property, _, h => fun _ =>
      (Expr.steady_lower object h).then <| keeps_named property [] nofun fun _ => ⟨rfl, rfl⟩
  | .computedMember object property, _, h =>
      steady_valueOf (targets_propertyTarget (Expr.steady_lower object h.1)
        (Expr.takes_lowerKey property h.2))
  | .superMember property, _, h => steady_valueOf (targets_superTarget h (takes_nameKey property))
  | .superComputedMember property, _, h =>
      steady_valueOf (targets_superTarget h.1 (Expr.takes_lowerKey property h.2))
  | .call callee arguments, _, h =>
      steady_call (Expr.items_lowerItems arguments h.2) (Expr.takes_lowerCallee callee h.1)
  | .superCall arguments, _, h =>
      steady_superCall (Expr.items_lowerItems arguments h.1) h.2.2 h.2.1
  | .construct callee arguments, position, h =>
      steady_construct (Expr.items_lowerItems arguments h.2) position (Expr.steady_lower callee h.1)
  | .spread _, _, _ => fun _ =>
      J.fail ⟨Failure.not_blames_internal (c := 's') (by simp) rfl, .spread⟩ rfl
  | .function _, _, h => fun _ => J.function (J.hosts h)
  | .classExpr node, _, h => ClassNode.steady_lower node none h nofun
  | .unary op operand, _, h => by
      have own := Expr.steady_lower operand h
      have deletes := Expr.steady_lowerDelete operand h
      show J.Steady env _ (unaryOperation op operand.bare.name? operand.bare.lower operand.bare.lowerDelete)
      rw [Expr.name?_bare]
      exact steady_unaryOperation own op (Expr.Surveyed.sees_name? h) deletes
  | .update op isPrefix target, _, h =>
      steady_updateOperation (Expr.targets_lowerTarget target h) op isPrefix
  | .binary op lhs rhs, _, h =>
      steady_binaryOperation (Expr.steady_lower lhs h.1) (Expr.steady_lower rhs h.2) op
  | .logical op lhs rhs, _, h =>
      steady_logicalOperation (Expr.steady_lower lhs h.1) (Expr.steady_lower rhs h.2) op
  | .assignment none (.simple target) value, _, h =>
      steady_assign (Expr.targets_lowerTarget target h.1) (Expr.steady_lower value h.2)
  | .assignment (some op) (.simple target) value, _, h =>
      steady_compoundAssign (Expr.targets_lowerTarget target h.1) (Expr.steady_lower value h.2) op
  | .assignment none (.pattern p) value, _, h => fun _ =>
      (Expr.steady_lower value h.2).then <| does_storeTemp.step fun source =>
        (Pattern.uses_lower p .assign h.1.1 h.1.2 source _ (by simp)).then <|
        (keeps_lda (by simp)).before <| does_freeTemps 1 (.refl _)
  | .assignment (some _) (.pattern _) _, position, _ => fun _ =>
      J.fail ⟨Failure.not_blames_unsupported _ position, .unsupported _ _⟩ rfl
  | .conditional test consequent alternate, _, h =>
      steady_conditional (Expr.steady_lower consequent h.2.1) (Expr.steady_lower alternate h.2.2)
        (Expr.tests_lowerCondition test h.1)
  | .sequence items, _, h => fun σ =>
      .sequence ((Expr.steady_lowerEach items h).imp fun _ _ first => first σ)
  | .yield _, position, _ => fun _ =>
      J.fail ⟨Failure.not_blames_unsupported _ position, .unsupported _ _⟩ rfl
  | .await _, position, _ => fun _ =>
      J.fail ⟨Failure.not_blames_unsupported _ position, .unsupported _ _⟩ rfl

theorem Expr.steady_lowerEach {env : Env} : (es : List Expr) →
    Expr.SurveyedList J.ledger env.scope es →
    List.Forall₂ (J.Steady env) (Expr.lowerEach es) (Expr.lowerEach (Expr.bareList es))
  | [], _ => .nil
  | e :: rest, h => .cons (Expr.steady_lower e h.1) (Expr.steady_lowerEach rest h.2)

theorem Expr.steady_lower? {env : Env} : (e : Option Expr) →
    Expr.SurveyedOption J.ledger env.scope e →
    J.Optional env (Expr.lower? e) (Expr.lower? (Expr.bare? e))
  | none, _ => .none
  | some e, h => .some (Expr.steady_lower e h)

theorem Expr.item_lowerItem {env : Env} : (e : Expr) → e.Surveyed J.ledger env.scope →
    J.Item env e.lowerItem e.bare.lowerItem
  | ⟨position, kind⟩, h => by
      have own := ExprKind.steady_lower kind position h
      cases kind with
      | spread inner => exact .spread (Expr.steady_lower inner h)
      | _ => exact .value own

theorem Expr.items_lowerItems {env : Env} : (es : List Expr) →
    Expr.SurveyedList J.ledger env.scope es →
    List.Forall₂ (J.Item env) (Expr.lowerItems es) (Expr.lowerItems (Expr.bareList es))
  | [], _ => .nil
  | e :: rest, h => .cons (Expr.item_lowerItem e h.1) (Expr.items_lowerItems rest h.2)

theorem Expr.item_lowerElement {env : Env} : (e : Option Expr) →
    Expr.SurveyedOption J.ledger env.scope e →
    J.Item env (Expr.lowerElement e) (Expr.lowerElement (Expr.bare? e))
  | none, _ => .hole
  | some e, h => Expr.item_lowerItem e h

theorem Expr.items_lowerElements {env : Env} : (es : List (Option Expr)) →
    Expr.SurveyedElements J.ledger env.scope es →
    List.Forall₂ (J.Item env) (Expr.lowerElements es) (Expr.lowerElements (Expr.bareElements es))
  | [], _ => .nil
  | e :: rest, h => .cons (Expr.item_lowerElement e h.1) (Expr.items_lowerElements rest h.2)

theorem Expr.tests_lowerCondition {env : Env} : (e : Expr) → e.Surveyed J.ledger env.scope →
    J.Tests env e.lowerCondition e.bare.lowerCondition
  | ⟨position, kind⟩, h => by
      have own := tests_jumpUnless (ExprKind.steady_lower kind position h)
      cases kind with
      | binary op lhs rhs =>
        have left := Expr.steady_lower lhs h.1
        have right := Expr.steady_lower rhs h.2
        exact fun l σ known => .ite (fun _ => tests_comparison left right op l σ known) fun _ =>
          own l σ known
      | logical op lhs rhs =>
        have left := Expr.tests_lowerCondition lhs h.1
        have right := Expr.tests_lowerCondition rhs h.2
        cases op with
        | and => exact fun l σ known => (left l σ known).then <| right l σ known
        | or => exact tests_disjunction left right
        | nullish => exact own
      | unary op operand =>
        have inside := Expr.steady_lower operand h
        cases op with
        | not => exact fun _ _ known => inside.then <| keeps_jumpIfTrue known
        | _ => exact own
      | _ => exact own

theorem Expr.takes_lowerKey {env : Env} : (e : Expr) → e.Surveyed J.ledger env.scope →
    J.TakesKey env e.lowerKey e.bare.lowerKey
  | ⟨position, kind⟩, h => by
      have own := takes_valueKey (ExprKind.steady_lower kind position h)
      cases kind with
      | string name => exact takes_nameKey name
      | number value => exact takes_ofNumber value
      | _ => exact own

theorem Expr.targets_lowerTarget {env : Env} : (e : Expr) → e.Surveyed J.ledger env.scope →
    J.Targets env e.lowerTarget e.bare.lowerTarget
  | ⟨position, kind⟩, h => by
      have refused : J.Targets env
          (throw (.unsupported "assignment to this kind of target" position))
          (throw (.unsupported "assignment to this kind of target" .bare)) :=
        @targets_throw _ _ _ (.unsupported _ .bare)
          ⟨Failure.not_blames_unsupported _ position, .unsupported _ _⟩ rfl
      cases kind with
      | identifier name => exact targets_variable h
      | member object property =>
        exact targets_propertyTarget (Expr.steady_lower object h) (takes_nameKey property)
      | computedMember object property =>
        exact targets_propertyTarget (Expr.steady_lower object h.1) (Expr.takes_lowerKey property h.2)
      | superMember property => exact targets_superTarget h (takes_nameKey property)
      | superComputedMember property =>
        exact targets_superTarget h.1 (Expr.takes_lowerKey property h.2)
      | _ => exact refused

theorem Expr.takes_lowerCallee {env : Env} : (e : Expr) → e.Surveyed J.ledger env.scope →
    J.Takes env e.lowerCallee e.bare.lowerCallee Callee.temps
  | ⟨position, kind⟩, h => by
      have own := takes_plainCallee (ExprKind.steady_lower kind position h)
      cases kind with
      | member object property =>
        exact takes_propertyCallee
          (targets_propertyTarget (Expr.steady_lower object h) (takes_nameKey property))
      | computedMember object property =>
        exact takes_propertyCallee
          (targets_propertyTarget (Expr.steady_lower object h.1) (Expr.takes_lowerKey property h.2))
      | superMember property =>
        exact takes_propertyCallee (targets_superTarget h (takes_nameKey property))
      | superComputedMember property =>
        exact takes_propertyCallee (targets_superTarget h.1 (Expr.takes_lowerKey property h.2))
      | _ => exact own

theorem Expr.steady_lowerDelete {env : Env} : (e : Expr) → e.Surveyed J.ledger env.scope →
    J.Steady env e.lowerDelete e.bare.lowerDelete
  | ⟨position, kind⟩, h => by
      have own := steady_deleteValue (ExprKind.steady_lower kind position h)
      cases kind with
      | identifier name => exact steady_deleteName h
      | member object property =>
        exact steady_deleteProperty (Expr.steady_lower object h) (takes_nameKey property)
      | computedMember object property =>
        exact steady_deleteProperty (Expr.steady_lower object h.1) (Expr.takes_lowerKey property h.2)
      | superMember property => exact fun _ => keeps_plain rfl rfl
      | superComputedMember property => exact fun _ => keeps_plain rfl rfl
      | _ => exact own

theorem PropertyKey.takes_lower {env : Env} : (key : PropertyKey) →
    key.Surveyed J.ledger env.scope → J.TakesKey env key.lower key.bare.lower
  | .identifier name, _ => takes_nameKey name
  | .string name, _ => takes_nameKey name
  | .number value, _ => takes_ofNumber value
  | .computed key, h => Expr.takes_lowerKey key h

theorem PropertyKey.steady_lowerComputed {env : Env} : (key : PropertyKey) →
    key.Surveyed J.ledger env.scope → J.Optional env key.lowerComputed key.bare.lowerComputed
  | .computed key, h => .some (Expr.steady_lower key h)
  | .identifier _, _ => .none
  | .string _, _ => .none
  | .number _, _ => .none

theorem Property.item_lower {env : Env} : (property : Property) →
    property.Surveyed J.ledger env.scope → J.ObjectItem env property.lower property.bare.lower
  | .keyValue key value, h => .value (PropertyKey.takes_lower key h.1) (Expr.steady_lower value h.2)
  | .shorthand _, h => .shorthand h
  | .method key f, h => by
      have keys := PropertyKey.takes_lower key h.1
      show J.ObjectItem env (match f.kind with
          | .getter | .setter => .accessor key.literalName? key.lower f
          | _ => .method key.lower f)
        (match f.bare.kind with
          | .getter | .setter => .accessor key.bare.literalName? key.bare.lower f.bare
          | _ => .method key.bare.lower f.bare)
      rw [FunctionNode.kind_bare, PropertyKey.literalName?_bare]
      cases f.kind with
      | getter | setter => exact .accessor _ keys h.2
      | _ => exact .method keys h.2
  | .spread value, h => .spread (Expr.steady_lower value h)

theorem Property.items_lowerEach {env : Env} : (properties : List Property) →
    Property.SurveyedList J.ledger env.scope properties →
    List.Forall₂ (J.ObjectItem env) (Property.lowerEach properties)
      (Property.lowerEach (Property.bareList properties))
  | [], _ => .nil
  | property :: rest, h => .cons (Property.item_lower property h.1) (Property.items_lowerEach rest h.2)

theorem Pattern.uses_lower {env : Env} : (p : Pattern) → (mode : BindingMode) →
    p.Surveyed J.ledger env.scope →
    (J.ledger.surveyed → J.ledger.ReachesAll env.scope p.boundNames) →
    J.Uses env (p.lower mode) (p.bare.lower mode)
  | ⟨_, shape, elements⟩, mode, h, reached =>
      uses_bindPattern (PatternElement.parts_lowerEach elements mode h reached) shape

theorem PatternElement.parts_lowerEach {env : Env} : (elements : List PatternElement) →
    (mode : BindingMode) → PatternElement.SurveyedList J.ledger env.scope elements →
    (J.ledger.surveyed →
      J.ledger.ReachesAll env.scope (PatternElement.boundNamesOfList elements)) →
    List.Forall₂ (J.PatternElements env) (PatternElement.lowerEach elements mode)
      (PatternElement.lowerEach (PatternElement.bareList elements) mode)
  | [], _, _, _ => .nil
  | element :: rest, mode, h, reached =>
      .cons (PatternElement.part_lower element mode
          (match element, h with
            | ⟨_, _, _, _⟩, h => ⟨h.1, h.2.1, h.2.2.1⟩)
          fun known name mem => reached known name (List.mem_append_left _ mem))
        (PatternElement.parts_lowerEach rest mode
          (match element, h with
            | ⟨_, _, _, _⟩, h => h.2.2.2)
          fun known name mem => reached known name (List.mem_append_right _ mem))

theorem PatternElement.part_lower {env : Env} : (element : PatternElement) → (mode : BindingMode) →
    (PropertyKey.SurveyedOption J.ledger env.scope element.key ∧
      BindingTarget.SurveyedOption J.ledger env.scope element.target ∧
      Expr.SurveyedOption J.ledger env.scope element.default) →
    (J.ledger.surveyed → J.ledger.ReachesAll env.scope element.boundNames) →
    J.PatternElements env (element.lower mode) (element.bare.lower mode)
  | ⟨some key, target, default, _⟩, mode, h, reached =>
      ⟨PropertyKey.takes_lower key h.1,
        BindingTarget.steady_lower? target mode h.2.1 fun known t mem => by cases mem; exact reached known,
        Expr.steady_lower? default h.2.2, rfl⟩
  | ⟨none, target, default, _⟩, mode, h, reached =>
      ⟨takes_impliedKey target,
        BindingTarget.steady_lower? target mode h.2.1 fun known t mem => by cases mem; exact reached known,
        Expr.steady_lower? default h.2.2, rfl⟩

theorem BindingTarget.steady_lower {env : Env} : (target : BindingTarget) → (mode : BindingMode) →
    target.Surveyed J.ledger env.scope →
    (J.ledger.surveyed → J.ledger.ReachesAll env.scope target.boundNames) →
    J.Steady env (target.lower mode) (target.bare.lower mode)
  | .identifier identifier, _, _, reached =>
      steady_store _ fun known => reached known identifier (.head _)
  | .pattern p, mode, h, reached => steady_onTemp (Pattern.uses_lower p mode h reached)

theorem BindingTarget.steady_lower? {env : Env} : (target : Option BindingTarget) →
    (mode : BindingMode) → BindingTarget.SurveyedOption J.ledger env.scope target →
    (J.ledger.surveyed → ∀ t ∈ target, J.ledger.ReachesAll env.scope t.boundNames) →
    J.Optional env (BindingTarget.lower? target mode)
      (BindingTarget.lower? (BindingTarget.bare? target) mode)
  | none, _, _, _ => .none
  | some target, mode, h, reached =>
      .some (BindingTarget.steady_lower target mode h fun known => reached known target rfl)

theorem ClassNode.steady_lower {env : Env} : (c : ClassNode) → (binding : Option String) →
    c.Surveyed J.ledger env.scope →
    (∀ name ∈ binding, J.Steady env (declareVariable name) (declareVariable name)) →
    J.Steady env (c.lower binding) (c.bare.lower binding)
  | ⟨id, position, name, superClass, isExpression, members⟩, binding, h, bound => by
      have bases := Expr.steady_lower? superClass h.1
      refine fun σ => J.classDef (c := ⟨id, position, name, superClass, isExpression, members⟩) h
        (Optional.getD bases fun _ => keeps_constant _) bound fun place placed object σ own =>
        J.anchor fun same => leads_classScopeCode (fun x mem known => ?_) own ?_
      · unfold ownName? at mem
        split at mem
        · rename_i expression
          obtain ⟨identifier, named, rfl⟩ := Option.map_eq_some_iff.mp mem
          exact (placed known).named expression identifier (Option.mem_toList.mpr named)
        · cases mem
      · exact @ClassMember.members_lowerEach { env with scope := place.scope } members
          place.constructorScope (h.2.2 place placed).2 same

theorem ClassMember.members_lowerEach {env : Env} : (members : List ClassMember) →
    (constructorScope : ScopeId) →
    ClassMember.SurveyedList J.ledger env.scope constructorScope members →
    (J.ledger.surveyed → env.survey = J.ledger.survey) →
    List.Forall₂ (J.Member env) (ClassMember.lowerEach members)
      (ClassMember.lowerEach (ClassMember.bareList members))
  | [], _, _, _ => .nil
  | member :: rest, constructorScope, h, same =>
      .cons (ClassMember.member_lower member constructorScope (h.of_mem member (.head _)) same)
        (ClassMember.members_lowerEach rest constructorScope
          (match member, h with
            | ⟨_, _, _, _, _⟩, h => h.2.2.2.2) same)

theorem ClassMember.member_lower {env : Env} : (member : ClassMember) → (constructorScope : ScopeId) →
    member.IsSurveyed J.ledger env.scope constructorScope →
    (J.ledger.surveyed → env.survey = J.ledger.survey) → J.Member env member.lower member.bare.lower
  | ⟨_, _, key, _, kind⟩, constructorScope, h, same =>
      ⟨rfl, rfl, rfl, key.literalName?_bare,
        fun binding found known => (h.binding known binding (same known ▸ found)).1,
        PropertyKey.takes_lower key h.key, PropertyKey.steady_lowerComputed key h.key,
        MemberKind.content_lower kind constructorScope h.kind⟩

theorem MemberKind.content_lower {env : Env} {isStatic : Bool} : (kind : MemberKind) →
    (constructorScope : ScopeId) →
    kind.Surveyed J.ledger env.scope (if isStatic then env.scope else constructorScope) →
    J.Content env isStatic kind.lower kind.bare.lower
  | .method _, _, h => .method h
  | .field initializer, constructorScope, h => .field fun static => by
      rw [static, if_pos rfl] at h
      exact Expr.steady_lower? initializer h

end

/-! ## Instance fields -/

/-- What is needed of a member in the scope of the constructor. -/
structure ClassMember.FieldSurveyed (L : Ledger) (survey : Survey) (scope : ScopeId)
    (member : ClassMember) : Prop where
  binding : L.surveyed → ∀ binding, survey.computedFieldKeys.get? member.id = some binding →
    L.Reaches scope binding
  key : member.isStatic = false → member.kind.isField = true →
    survey.computedFieldKeys.get? member.id = none → member.key.Surveyed L scope
  value : member.isStatic = false → ∀ initializer, member.kind = .field initializer →
    Expr.SurveyedOption L scope initializer

theorem ClassMember.fields_lowerEach {env : Env} {members : List ClassMember}
    (h : ∀ member ∈ members, member.FieldSurveyed J.ledger env.survey env.scope) :
    List.Forall₂ (J.FieldPart env) (ClassMember.lowerEach members)
      (ClassMember.lowerEach (ClassMember.bareList members)) := by
  induction members with
  | nil => exact .nil
  | cons member rest ih =>
    obtain ⟨binding, keys, value⟩ := h member (.head _)
    refine .cons ⟨?_⟩ (ih fun member mem => h member (.tail _ mem))
    obtain ⟨id, position, key, isStatic, kind⟩ := member
    cases kind with
    | method f => exact .none
    | field initializer =>
      cases isStatic with
      | true => exact .none
      | false =>
        exact .some ⟨rfl, rfl, fun name found known => binding known name found, fun none =>
          PropertyKey.takes_lower key (keys rfl rfl none),
          Expr.steady_lower? initializer (value rfl initializer rfl)⟩

theorem ClassNode.fieldSurveyed_blank (survey : Survey) (s : ScopeId)
    (c : ClassNode) : ∀ member ∈ c.members, member.FieldSurveyed .blank survey s := by
  obtain ⟨id, position, name, superClass, isExpression, members⟩ := c
  intro member mem
  have all := ClassNode.surveyed_blank s ⟨id, position, name, superClass, isExpression, members⟩
  have own := (all.2.2 ⟨s, id, s⟩ False.elim).2.of_mem member mem
  refine ⟨False.elim, fun _ _ _ => own.key, fun static initializer content => ?_⟩
  have kind := own.kind
  rw [static, content] at kind
  exact kind

end AccScript
