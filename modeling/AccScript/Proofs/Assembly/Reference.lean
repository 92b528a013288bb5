import AccScript.Proofs.Assembly.Access

/-!
# Variables, functions and classes

Questions to the survey are neutral, and so is what creates functions and classes, whatever the code
of the members of a class does with the registers it takes.
-/

namespace AccScript

open Asm Lower

variable {α β : Type} {G : Guard} {σ : Stage} {env : Env} (v : VariableId) (name : String)

/-! ## Questions -/

theorem neutral_lift (env : Env) {x : Except Failure α}
    (failed : ∀ failure, x = .error failure → ¬failure.Blames) :
    Neutral ((liftM x : Lower α) env) := by
  refine fun G σ => ⟨fun a sound => ?_⟩
  cases answer : x with
  | error failure => exact failed failure answer
  | ok y => exact ⟨sound, .refl a⟩

theorem orBroken_not_blames {x : Option α} {failure : Failure}
    (failed : orBroken x = .error failure) : ¬failure.Blames := by
  cases x with
  | none =>
    cases failed
    exact Failure.not_blames_unmet
  | some y => cases failed

theorem neutral_orBroken (env : Env) (x : Option α) : Neutral ((liftM (orBroken x) : Lower α) env) :=
  neutral_lift env fun _ => orBroken_not_blames

theorem neutral_variableData : Neutral (variableData v env) :=
  neutral_orBroken env _

theorem neutral_resolveName : Neutral (resolveName name env) := by
  refine neutral_lift env fun failure failed => ?_
  unfold ScopeTree.resolve at failed
  repeat' split at failed
  all_goals cases failed
  · exact Failure.not_blames_unmet
  · exact Failure.not_blames_internal (c := '\'') (by simp) rfl

theorem neutral_functionFacts (node : NodeId) :
    Neutral ((liftM (env.survey.functionFacts node) : Lower FunctionFacts) env) := by
  refine neutral_lift env fun failure failed => ?_
  unfold Survey.functionFacts at failed
  split at failed
  · cases failed
  · cases failed
    exact Failure.not_blames_internal (c := 'n') (by simp) rfl

theorem Survey.scopeOf_not_blames {survey : Survey} {node : NodeId} {failure : Failure}
    (failed : survey.scopeOf node = .error failure) : ¬failure.Blames := by
  unfold scopeOf at failed
  split at failed
  · cases failed
  · cases failed
    exact Failure.not_blames_internal (c := 'n') (by simp) rfl

theorem neutral_scopeOf (node : NodeId) : Neutral (scopeOf node env) :=
  neutral_lift env fun _ => Survey.scopeOf_not_blames

theorem neutral_internalName (node : NodeId) : Neutral (internalName node env) := by
  refine fun G σ => .read ?_
  cases env.names.get? node with
  | some name => exact Neutral.pure name G σ
  | none => exact .throw (Failure.not_blames_internal (c := 'f') (by simp) rfl)

theorem neutral_localResolution : Neutral (localResolution v env) := by
  refine fun G σ => .read ((neutral_variableData v).follow fun data => ?_)
  cases data.slot with
  | some slot => exact Neutral.pure _ G σ
  | none => exact Neutral.pure _ G σ

theorem neutral_mayBeUninitialized : Neutral (mayBeUninitialized v env) :=
  fun G σ => (neutral_variableData v).follow fun _ => .inspect fun _ _ => Neutral.pure _ G σ

/-! ## Variables -/

theorem Neutral.choose {p : Prop} [Decidable p] {m m' : Lower α} (h : Neutral (m env))
    (h' : Neutral (m' env)) : Neutral ((if p then m else m') env) := by
  split
  · exact h
  · exact h'

theorem neutral_initializeRegister : Neutral (registerFor v >>= fun r => do
      sta r
      markInitialized v) := by
  intro G σ
  rw [← bind_assoc]
  exact (neutral_storeRegister v).seq <| neutral_markInitialized v G σ

/-! ## Functions -/

theorem neutral_defineFunction (f : FunctionNode) : Neutral (defineFunction f env) :=
  fun G σ => .read <| (neutral_functionFacts f.id).follow fun _ =>
    (neutral_internalName f.id).follow fun _ => (neutral_intern _).step fun _ =>
    (neutral_emitAt rfl rfl).then <| neutral_defer _ G σ

theorem neutral_defineMethod (f : FunctionNode) (isStrict : Bool) :
    Neutral (defineMethod f isStrict env) :=
  fun G σ => .read <| (neutral_functionFacts f.id).follow fun _ =>
    (neutral_internalName f.id).follow fun _ => (neutral_intern _).step fun _ =>
    (neutral_emitAt rfl rfl).then <| neutral_defer _ G σ

/-! ## Classes -/

theorem Neutral.mapM {f : β → Lower α} {items : List β} (h : ∀ x ∈ items, Neutral (f x env)) :
    Neutral (items.mapM f env) := by
  induction items with
  | nil =>
    rw [List.mapM_nil]
    exact .pure []
  | cons x rest ih =>
    rw [List.mapM_cons]
    have others := ih fun x mem => h x (.tail _ mem)
    exact fun G σ => (h x (.head _)).follow fun _ => others.follow fun _ =>
      Neutral.pure _ G σ

theorem neutral_classLiterals (methods : List BufferedMethod) :
    Neutral (classLiterals methods env) := by
  refine fun G σ => Neutral.follow (.mapM fun m _ G σ => ?_) fun _ => Neutral.pure _ G σ
  exact .read <| (neutral_functionFacts m.function.id).follow fun _ =>
    (neutral_internalName m.function.id).follow fun _ => Neutral.pure _ G σ

theorem neutral_classConstructor (c : ClassNode) : Neutral (classConstructor c env) := by
  refine fun G σ => .read ?_
  cases env.survey.classConstructors.get? c.id with
  | some id => exact Neutral.pure id G σ
  | none => exact .throw (Failure.not_blames_internal (c := 'c') (by simp) rfl)

theorem flows_createClass {base : Register} (own : base ∈ σ.temps) (constructor : NodeId)
    (methods : List BufferedMethod) :
    Flows G σ (createClass base constructor methods env) fun _ => σ :=
  (neutral_classLiterals methods).follow fun _ => (neutral_addLiteral _).step fun _ =>
    (neutral_internalName constructor).follow fun _ => (neutral_intern _).step fun _ =>
    .read <| (neutral_functionFacts constructor).follow fun _ =>
    flows_emitAt ⟨rfl, by simp [Instruction.registers, Instruction.operands, Operand.register?, own],
      by simp [Instruction.target?]⟩ rfl

theorem neutral_deferMethods (constructor : UnitSource) (methods : List BufferedMethod) :
    Neutral (deferMethods constructor methods) := by
  have all : Neutral (methods.forM fun m => defer (.function m.function none true)) := by
    induction methods with
    | nil => exact .pure ()
    | cons m rest ih => exact fun G σ => (neutral_defer _).seq <| ih G σ
  exact fun G σ => (neutral_defer constructor).seq <| all G σ

theorem neutral_defineClass (c : ClassNode) {superClass : Option (Lower Unit)}
    {parts : List MemberPart} (bases : Neutral (superClass.getD (constant .hole) env))
    (h : ∀ scope object G σ, object ∈ σ.temps →
      Flows G σ (classScopeCode c object parts { env with scope }) fun _ => σ)
    {binding : Option String} (bound : ∀ name ∈ binding, Neutral (declareVariable name env)) :
    Neutral (defineClass c superClass parts binding env) := by
  refine fun G σ => (neutral_atPosition _).before <| (neutral_scopeOf c.id).follow fun scope =>
    (neutral_classConstructor c).follow fun constructor => flows_getTemp.step fun base =>
    bases.then <| (flows_sta (by simp)).before <|
    (flows_createClass (by simp) constructor _).then <|
    (flows_freeTemps 1 (.refl _)).before <| flows_storeTemp.step fun object =>
    (neutral_deferMethods _ _).before ?_
  have rest : Flows G (σ.hold [object]) ((do
      Lower.withScope scope (classScopeCode c object parts)
      lda object
      freeTemps [object] : Lower Unit) env) fun _ => σ :=
    Flows.follow (m := Lower.withScope scope _) (h scope object G _ (by simp)) fun _ =>
      (flows_lda (by simp)).before <| flows_freeTemps 1 (.refl _)
  cases binding with
  | none => exact rest
  | some name => exact (bound name rfl).then rest

end AccScript
