import AccScript.Proofs.Judgement.ClassBody
import AccScript.Proofs.Metadata.Access

/-!
# The echo of questions, functions and classes

What lowering asks of the survey has the same answer without types.  A register of a variable is
loaded only where the variable is ready, which is what `mayBeUninitialized` rules on.
-/

namespace AccScript

open Asm Lower

variable {α : Type} {E : VariableId → Prop} {Γ : List Resource} (name : String) (v : VariableId)

/-! ## Questions -/

theorem resounds_scopeOf (node : NodeId) : Resonates E (scopeOf node) :=
  fun _ => .read fun env _ _ _ => .lift (env.survey.scopeOf node)

theorem resounds_internalName (node : NodeId) : Resonates E (internalName node) := by
  refine fun Γ => .read fun env _ _ _ => ?_
  dsimp only [Env.recast]
  cases env.names.get? node with
  | some name => exact .done
  | none => exact .throw rfl

theorem Resounds.inScopeOf {out : α → List Resource} {m m' : Lower α} (h : Resounds E m m' out)
    (node : NodeId) : Resounds E (inScopeOf node m) (inScopeOf node m') out :=
  fun Γ => (resounds_scopeOf node).seq fun scope => (h Γ).withScope scope

theorem resounds_enterEnvironment (scope : ScopeId) (slotNames : List String) :
    Resonates E (enterEnvironment scope slotNames) :=
  fun _ => (echo_environmentInstruction slotNames).step fun i =>
    echoes_emitAt _ i.needs rfl (by simp +contextual)

theorem resounds_resolveName : Resonates E (resolveName name) := by
  refine fun Γ => .read fun env _ _ _ => ?_
  have same : env.survey.untyped.tree.resolve env.scope name env.options.commonjs =
      env.tree.resolve env.scope name env.options.commonjs := env.tree.resolve_untyped _ _ _
  show Echoes E Γ _ (liftM (env.survey.untyped.tree.resolve env.scope name env.options.commonjs)) _
  rw [same]
  exact .lift _

theorem resounds_localResolution : Resonates E (localResolution v) := by
  refine fun Γ => .read fun env _ _ _ => .variableData v fun data _ => ?_
  have same : env.survey.untyped.tree.level env.scope v = env.tree.level env.scope v :=
    env.tree.level_untyped _ _
  rw [show (Env.recast env _ _).tree.level (Env.recast env _ _).scope v = _ from same,
    show data.untyped.slot = data.slot from rfl]
  cases data.slot with
  | some slot => exact .done
  | none => exact .done

theorem resounds_mayBeUninitialized : Resonates E (mayBeUninitialized v)
      fun hole => if hole then [] else [.ready v] := by
  refine fun Γ => .variableData v fun data exempt Δ env env' _ _ a _ => .ok ⟨rfl, .refl, ?_⟩
  intro x mem
  show a.Has E x
  cases started : data.startsInitialized with
  | true =>
    have ready : E v := exempt (.inl started)
    simp only [started, Bool.not_true, Bool.false_and, Bool.false_eq_true, if_false,
      List.mem_singleton] at mem
    subst mem
    exact .inr ready
  | false =>
    by_cases marked : v ∈ a.initialized
    · simp only [started, Assembler.isInitialized, marked, decide_true, Bool.not_true, Bool.and_false,
        Bool.false_eq_true, if_false, List.mem_singleton] at mem
      subst mem
      exact .inl marked
    · simp [started, Assembler.isInitialized, marked] at mem

/-! ## Functions -/

theorem resounds_defineFunction (f : FunctionNode) :
    Resounds E (defineFunction f) (defineFunction f.bare) := by
  cases f
  exact fun _ => .read fun env _ _ _ => .ask (env.survey.functionFacts _) fun _ =>
    (resounds_internalName _).seq fun name => (echo_intern name).step fun id =>
    (echoes_emitAt _ [.string id] rfl (by simp)).then <| (echo_defer _).lift

theorem resounds_defineMethod (f : FunctionNode) (isStrict : Bool) :
    Resounds E (defineMethod f isStrict) (defineMethod f.bare isStrict) := by
  cases f
  exact fun _ => .read fun env _ _ _ => .ask (env.survey.functionFacts _) fun _ =>
    (resounds_internalName _).seq fun name => (echo_intern name).step fun id =>
    (echoes_emitAt _ [.string id] rfl (by simp)).then <| (echo_defer _).lift

/-! ## Classes -/

section Classes

variable {β : Type} (c : ClassNode)

theorem resounds_methodLiterals (m : BufferedMethod) :
    Resounds E (methodLiterals m) (methodLiterals m.bare) := by
  refine fun Γ => .read fun env _ _ _ => ?_
  show Echoes E Γ (liftM (env.survey.functionFacts m.function.id) >>= fun facts =>
    internalName m.function.id >>= _) (liftM (env.survey.functionFacts m.function.bare.id) >>=
      fun facts => internalName m.function.bare.id >>= _)
  rw [FunctionNode.id_bare]
  exact .ask _ fun _ => (resounds_internalName _).seq fun _ => .done

theorem Resounds.mapM {f f' : β → Lower α} {items items' : List β}
    (h : List.Forall₂ (fun x x' => Resounds E (f x) (f' x')) items items') :
    Resounds E (items.mapM f) (items'.mapM f') := by
  intro Γ
  induction h with
  | nil => exact .done
  | cons first _ ih =>
    rw [List.mapM_cons, List.mapM_cons]
    exact first.seq fun _ => ih.seq fun _ => .done

theorem resounds_classLiterals (methods : List BufferedMethod) :
    Resounds E (classLiterals methods) (classLiterals (methods.map .bare)) := by
  refine fun Γ => Resounds.seq (.mapM ?_) fun _ => ?_
  · rw [List.forall₂_map_right_iff]
    exact List.forall₂_same.mpr fun m _ => resounds_methodLiterals m
  · rw [List.countP_map]
    exact .done

theorem resounds_classConstructor :
    Resounds E (classConstructor c) (classConstructor c.bare) := by
  refine fun Γ => .read fun env _ _ _ => ?_
  rw [show (Env.recast env _ _).survey.classConstructors = env.survey.classConstructors from rfl,
    ClassNode.id_bare]
  cases env.survey.classConstructors.get? c.id with
  | some id => exact .done
  | none => exact .throw rfl

theorem echoes_createClass {base : Register} (own : .temp base ∈ Γ) (constructor : NodeId)
    (methods : List BufferedMethod) :
    Echoes E Γ (createClass base constructor methods) (createClass base constructor (methods.map .bare)) := by
  have nodes : (methods.map BufferedMethod.bare).map (fun m => m.function.id) =
      methods.map fun m => m.function.id := by
    rw [List.map_map]
    exact List.map_congr_left fun m _ => m.function.id_bare
  refine (resounds_classLiterals methods).seq fun literals => (echo_addLiteral literals).step fun literal =>
    (resounds_internalName constructor).seq fun name => (echo_intern name).step fun id =>
    .read fun env _ _ _ => .ask (env.survey.functionFacts constructor) fun facts => ?_
  rw [nodes]
  exact echoes_emitAt _ [.temp base, .string id, .literal literal] rfl (by simp [own])

theorem constructorUnit_bare (id : NodeId) :
    constructorUnit c.bare id = (constructorUnit c id).bare := by
  rw [constructorUnit, constructorUnit, ClassNode.constructor?_bare]
  cases c.constructor? <;> rfl

theorem echo_deferMethods (constructor : UnitSource) (methods : List BufferedMethod) :
    Echo E Γ (deferMethods constructor methods) (deferMethods constructor.bare (methods.map .bare)) := by
  refine (echo_defer constructor).then ?_
  induction methods with
  | nil => exact .done
  | cons m rest ih => exact (echo_defer (.function m.function none true)).then ih

/-- Lowering and its echo in a given environment. -/
def EchoesIn (E : VariableId → Prop) (env : Env) (Γ : List Resource) (m m' : Lower α)
    (out : α → List Resource := nothing) : Prop :=
  ∀ Δ env', Γ ⊆ Δ → env.Matches E Δ env' → Echo E Δ (m env) (m' env') out

variable {env : Env} {m m' : Lower α} {f f' : α → Lower β} {out : α → List Resource}
  {out' : β → List Resource}

theorem Echoes.inEnv (h : Echoes E Γ m m' out) : EchoesIn E env Γ m m' out :=
  fun Δ env' => h Δ env env'

theorem EchoesIn.bind (first : EchoesIn E env Γ m m' out)
    (next : ∀ x, EchoesIn E env (out x ++ Γ) (f x) (f' x) out') :
    EchoesIn E env Γ (m >>= f) (m' >>= f') out' :=
  fun Δ env' more matched => Echo.bind_of (fun x => f x env) (fun x => f' x env')
    (first Δ env' more matched) fun x => next x (out x ++ Δ) env'
      (Resource.append_subset_append more) (matched.weaken (List.subset_append_right _ _))

theorem Echoes.before {n n' : Lower β} (first : Echoes E Γ m m')
    (next : EchoesIn E env Γ n n' out') :
    EchoesIn E env Γ (m >>= fun _ => n) (m' >>= fun _ => n') out' :=
  first.inEnv.bind fun _ => next

theorem echoes_defineClass {superClass superClass' : Option (Lower Unit)}
    {parts parts' : List MemberPart} {binding : Option String}
    (bases : EchoesIn E env [] (superClass.getD (constant .hole)) (superClass'.getD (constant .hole)))
    (inside : ∀ scope object, EchoesIn E { env with scope } [.temp object]
      (classScopeCode c object parts) (classScopeCode c.bare object parts'))
    (bound : ∀ name ∈ binding, EchoesIn E env [] (declareVariable name) (declareVariable name)) :
    EchoesIn E env Γ (defineClass c superClass parts binding)
      (defineClass c.bare superClass' parts' binding) := by
  have position : c.bare.position = .bare := by cases c; rfl
  unfold defineClass
  rw [position, ClassNode.id_bare]
  refine (echo_atPosition _).lift.before <| (resounds_scopeOf c.id _).inEnv.bind fun scope =>
    (resounds_classConstructor c _).inEnv.bind fun constructor => echo_getTemp.lift.inEnv.bind fun base =>
    EchoesIn.bind (fun Δ env' _ => bases Δ env' (List.nil_subset _)) fun _ =>
    (echo_sta (by simp)).lift.before ?_
  rw [bufferedMethods_bare, constructorUnit_bare]
  refine (echoes_createClass (by simp) constructor _).before <|
    (echo_freeTemps (by simp)).lift.before <| echo_storeTemp.lift.inEnv.bind fun object =>
    (echo_deferMethods _ _).lift.before ?_
  have rest : EchoesIn E env ([.temp object] ++ ([.temp base] ++ Γ)) (do
      Lower.withScope scope (classScopeCode c object parts)
      lda object
      freeTemps [object] : Lower Unit) (do
      Lower.withScope scope (classScopeCode c.bare object parts')
      lda object
      freeTemps [object]) := by
    have members : EchoesIn E env ([.temp object] ++ ([.temp base] ++ Γ))
        (Lower.withScope scope (classScopeCode c object parts))
        (Lower.withScope scope (classScopeCode c.bare object parts')) :=
      fun Δ env' more matched => inside scope object Δ _
        (fun _ mem => more (List.mem_append_left _ mem)) (matched.withScope scope)
    exact members.bind fun _ => (echo_lda (by simp)).lift.before <|
      (echo_freeTemps (by simp)).lift.inEnv
  cases binding with
  | none => exact rest
  | some name =>
    exact EchoesIn.bind (fun Δ env' _ => bound name rfl Δ env' (List.nil_subset _)) fun _ => rest

end Classes

end AccScript
