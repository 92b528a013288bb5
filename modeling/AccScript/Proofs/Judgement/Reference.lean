import AccScript.Proofs.Judgement.Variable

/-!
# References and operators

Evaluating a key or an assignment target takes the registers that it is kept in, and giving it back
gives back exactly these.  Each form of operator is steady if its operands are; a test jumps to a
label that the code around it knows.
-/

namespace AccScript

open Asm Lower

def Target.temps : Target → List Register
  | .variable _ => []
  | .property object key | .superProperty object key => key.temps ++ [object]

namespace Judgement

variable {J : Judgement} {env : Env} {σ : Stage}

/-! ## Keys -/

section Keys

variable {key : KeyOperand}

theorem does_freeKey : J.Does env (σ.hold key.temps) (freeKey key) (freeKey key) fun _ => σ := by
  cases key with
  | value key => exact does_freeTemps 1 (.refl _)
  | _ => exact Does.done (σ := σ)

theorem keeps_loadKey (own : ∀ r ∈ key.temps, r ∈ σ.temps) : J.Keeps env σ (loadKey key) := by
  cases key with
  | name name => exact keeps_loadString name
  | index index => exact keeps_loadNat index
  | value key => exact keeps_lda (own key (.head _))

theorem does_keyRegister :
    J.Does env (σ.hold key.temps) (keyRegister key) (keyRegister key) fun r => σ.hold [r] := by
  cases key with
  | value key => exact .result (fun r => [r]) key
  | name name =>
    exact does_getTemp.bind fun r => (keeps_loadString name).then <| (keeps_sta (by simp)).then <|
      .result (fun r => [r]) r
  | index index =>
    exact does_getTemp.bind fun r => (keeps_loadNat index).then <| (keeps_sta (by simp)).then <|
      .result (fun r => [r]) r

/-- Code that evaluates a key. -/
abbrev TakesKey (J : Judgement) (env : Env) (m m' : Lower KeyOperand) : Prop :=
  J.Takes env m m' KeyOperand.temps

theorem takes_valueKey {code code' : Lower Unit} (h : J.Steady env code code') :
    J.TakesKey env (valueKey code) (valueKey code') :=
  fun _ => h.then <| does_storeTemp.step fun r => leads_return KeyOperand.temps (.value r)

theorem takes_nameKey (name : String) :
    J.TakesKey env (pure (.name name)) (pure (.name name)) :=
  .pure rfl

theorem takes_ofNumber (value : Binary64) :
    J.TakesKey env (pure (.ofNumber value)) (pure (.ofNumber value)) := by
  refine .pure ?_
  unfold KeyOperand.ofNumber
  repeat' split
  all_goals rfl

theorem keeps_loadSuper {receiver : Register} (own : receiver ∈ σ.temps)
    (keys : ∀ r ∈ key.temps, r ∈ σ.temps) : J.Keeps env σ (loadSuper receiver key) := by
  cases key with
  | value key =>
    exact (keeps_lda (keys key (.head _))).then <| keeps_emit [receiver] (by simpa using own) rfl rfl
  | name name => exact keeps_namedAfter name own fun _ => ⟨rfl, rfl⟩
  | index index => exact keeps_namedAfter _ own fun _ => ⟨rfl, rfl⟩

theorem keeps_storeSuper {receiver : Register} (own : receiver ∈ σ.temps)
    (keys : ∀ r ∈ key.temps, r ∈ σ.temps) : J.Keeps env σ (storeSuper receiver key) := by
  cases key with
  | value key => exact keeps_emit [receiver, key] (by simpa [KeyOperand.temps, own] using keys) rfl rfl
  | name name => exact keeps_named name [receiver] (by simpa using own) fun _ => ⟨rfl, rfl⟩
  | index index => exact keeps_named _ [receiver] (by simpa using own) fun _ => ⟨rfl, rfl⟩

end Keys

/-! ## Targets -/

/-- The name of a variable can be resolved. -/
def SeesTarget (J : Judgement) (env : Env) : Target → Prop
  | .variable name => J.Sees env name
  | _ => True

/-- Code that evaluates an assignment target.  Whatever follows may rely on it. -/
def Targets (J : Judgement) (env : Env) (m m' : Lower Target) : Prop :=
  ∀ {β : Type} (σ : Stage) (f f' : Target → Lower β) (υ : β → Stage),
    (∀ t, J.SeesTarget env t → J.Leads env (σ.hold t.temps) (f t) (f' t) υ) →
      J.Leads env σ (m >>= f) (m' >>= f') υ

section Targets

variable {β : Type} {υ : β → Stage} {target target' : Lower Target} {object object' : Lower Unit}
  {key key' : Lower KeyOperand} {t : Target}

theorem Targets.bind (h : J.Targets env target target') {f f' : Target → Lower β}
    (next : ∀ t, J.SeesTarget env t → J.Leads env (σ.hold t.temps) (f t) (f' t) υ) :
    J.Leads env σ (target >>= f) (target' >>= f') υ :=
  h σ f f' υ next

theorem targets_variable {name : String} (sees : J.Sees env name) :
    J.Targets env (pure (.variable name)) (pure (.variable name)) := by
  intro β σ f f' υ next
  rw [pure_bind, pure_bind]
  exact next (.variable name) sees

theorem targets_throw {failure failure' : Failure} (excused : failure.Excused)
    (same : failure.variant = failure'.variant) : J.Targets env (throw failure) (throw failure') :=
  fun _ _ _ _ _ => J.fail excused same

theorem targets_propertyTarget (objects : J.Steady env object object') (keys : J.TakesKey env key key') :
    J.Targets env (propertyTarget object key) (propertyTarget object' key') := by
  intro β σ f f' υ next
  simp only [propertyTarget, bind_assoc, pure_bind]
  refine objects.then <| does_storeTemp.step fun object => keys.bind fun key => ?_
  rw [Stage.hold_hold]
  exact next (.property object key) trivial

theorem targets_superTarget (sees : J.Sees env HiddenName.this) (keys : J.TakesKey env key key') :
    J.Targets env (superTarget key) (superTarget key') := by
  intro β σ f f' υ next
  simp only [superTarget, bind_assoc, pure_bind]
  refine (steady_loadThis sees).then <| does_storeTemp.step fun receiver => keys.bind fun key => ?_
  rw [Stage.hold_hold]
  exact next (.superProperty receiver key) trivial

theorem leads_loadTarget (sees : J.SeesTarget env t) (own : ∀ r ∈ t.temps, r ∈ σ.temps) :
    J.Leads env σ (loadTarget t) (loadTarget t) fun _ => σ := by
  cases t with
  | «variable» name => exact steady_load sees σ
  | property object key =>
    simp only [Target.temps, List.forall_mem_append, List.forall_mem_singleton] at own
    exact keeps_loadProperty own.2 own.1
  | superProperty receiver key =>
    simp only [Target.temps, List.forall_mem_append, List.forall_mem_singleton] at own
    exact keeps_loadSuper own.2 own.1

theorem leads_storeTarget (sees : J.SeesTarget env t) (own : ∀ r ∈ t.temps, r ∈ σ.temps) :
    J.Leads env σ (storeTarget t) (storeTarget t) fun _ => σ := by
  cases t with
  | «variable» name => exact steady_store false sees σ
  | property object key =>
    simp only [Target.temps, List.forall_mem_append, List.forall_mem_singleton] at own
    exact keeps_storeProperty own.2 own.1
  | superProperty receiver key =>
    simp only [Target.temps, List.forall_mem_append, List.forall_mem_singleton] at own
    exact keeps_storeSuper own.2 own.1

theorem does_freeTarget : J.Does env (σ.hold t.temps) (freeTarget t) (freeTarget t) fun _ => σ := by
  cases t with
  | «variable» name => exact Does.done (σ := σ)
  | property object key | superProperty object key =>
    rw [Target.temps, ← Stage.hold_hold]
    exact does_freeKey.then <| does_freeTemps 1 (.refl _)

theorem steady_valueOf (h : J.Targets env target target') :
    J.Steady env (valueOf target) (valueOf target') :=
  fun _ => h.bind fun _ sees => (leads_loadTarget sees (by simp +contextual)).then does_freeTarget

end Targets

/-! ## Functions -/

section Functions

variable {object : Register} (own : object ∈ σ.temps) (isStrict : Bool)

include own in
theorem leads_accessorHalf {register : Register} (own' : register ∈ σ.temps) {f : Option FunctionNode}
    (h : ∀ g ∈ f, g.Surveyed J.ledger env.scope) :
    J.Leads env σ (accessorHalf object register isStrict f)
      (accessorHalf object register isStrict (f.map FunctionNode.bare)) fun _ => σ := by
  cases f with
  | some f =>
    exact (keeps_lda own).before <| (J.method isStrict (h f rfl)).then <| keeps_sta own'
  | none => exact (keeps_constant _).before <| keeps_sta own'

include own in
theorem leads_defineAccessor {key : Register} (own' : key ∈ σ.temps)
    {getter setter : Option FunctionNode} (gets : ∀ g ∈ getter, g.Surveyed J.ledger env.scope)
    (sets : ∀ g ∈ setter, g.Surveyed J.ledger env.scope) :
    J.Leads env σ (defineAccessor object key getter setter isStrict)
      (defineAccessor object key (getter.map FunctionNode.bare) (setter.map FunctionNode.bare) isStrict)
      fun _ => σ := by
  refine does_getTemp.step fun get => does_getTemp.step fun set => ?_
  refine (leads_accessorHalf (by simp [own]) isStrict (by simp) gets).then ?_
  refine (leads_accessorHalf (by simp [own]) isStrict (by simp) sets).then ?_
  refine Does.before (keeps_emit [object, key, get, set] (by simp [own, own']) rfl rfl) ?_
  exact does_freeTemps 2 (List.Perm.swap get set [])

variable {key key' : Lower KeyOperand} (keys : J.TakesKey env key key') {f : FunctionNode}
  (h : f.Surveyed J.ledger env.scope)

include own keys h

theorem leads_defineAccessorPair {partner : Option FunctionNode}
    (partners : ∀ g ∈ partner, g.Surveyed J.ledger env.scope) :
    J.Leads env σ (defineAccessorPair object key f partner isStrict)
      (defineAccessorPair object key' f.bare (partner.map FunctionNode.bare) isStrict) fun _ => σ := by
  have alone : ∀ g ∈ some f, g.Surveyed J.ledger env.scope := by
    rintro _ ⟨⟩
    exact h
  refine keys.bind fun key => does_keyRegister.step fun register => ?_
  have own' : object ∈ (σ.hold [register]).temps := by simp [own]
  rw [FunctionNode.kind_bare]
  refine .ite (fun _ => ?_) fun _ => ?_
  · exact (leads_defineAccessor own' isStrict (by simp) alone partners).then <|
      does_freeTemps 1 (.refl _)
  · exact (leads_defineAccessor own' isStrict (by simp) partners alone).then <|
      does_freeTemps 1 (.refl _)

theorem leads_defineKeyedMethod : J.Leads env σ (defineKeyedMethod object key f isStrict)
      (defineKeyedMethod object key' f.bare isStrict) fun _ => σ :=
  keys.bind fun _ => (keeps_lda (by simp [own])).before <| (J.method isStrict h).then <|
    (keeps_storeOwnProperty (by simp [own]) (by simp +contextual)).before does_freeKey

end Functions

/-! ## Operators -/

section Operators

variable {operand operand' lhs lhs' rhs rhs' : Lower Unit} (h : J.Steady env operand operand')
  (left : J.Steady env lhs lhs') (right : J.Steady env rhs rhs')

include left right in
theorem steady_binaryOperation (op : BinaryOp) :
    J.Steady env (binaryOperation op lhs rhs) (binaryOperation op lhs' rhs') :=
  fun _ => left.then <| does_storeTemp.step fun _ => right.then <|
    (keeps_binary op (by simp)).before <| does_freeTemps 1 (.refl _)

include h in
theorem steady_negation : J.Steady env (negation operand) (negation operand') :=
  fun _ => does_freshLabel.step fun isFalse => does_freshLabel.step fun done => h.then <|
    (keeps_jumpIfFalse (by simp [Stage.Knows])).before <| (keeps_constant _).before <|
    (keeps_branch (by simp [Stage.Knows])).before <| (does_label 1 rfl).before <|
    (keeps_constant _).before <| does_label 0 rfl

include h in
theorem steady_typeOperation {name : Option String} (sees : ∀ x ∈ name, J.Sees env x) :
    J.Steady env (typeOperation name operand) (typeOperation name operand') := by
  intro σ
  cases name with
  | none => exact h.then <| keeps_unary _
  | some name =>
    refine (steady_isUnscoped (J.finds (sees name rfl))).bind fun _ => .ite (fun _ => J.inspect fun _ =>
      .ite (fun _ => ?_) fun _ => ?_) fun _ => ?_
    · exact (keeps_loadViaDebugger name false).before <| keeps_unary _
    · exact (keeps_constant _).before <| .assoc <|
        Does.before (keeps_named name [] nofun fun _ => ⟨rfl, rfl⟩) <|
        keeps_unary _
    · exact h.then <| keeps_unary _

include h in
theorem steady_unaryOperation (op : UnaryOp) {name : Option String} (sees : ∀ x ∈ name, J.Sees env x)
    {deletion deletion' : Lower Unit} (deletes : J.Steady env deletion deletion') :
    J.Steady env (unaryOperation op name operand deletion) (unaryOperation op name operand' deletion') := by
  intro σ
  cases op with
  | typeOf => exact steady_typeOperation h sees σ
  | not => exact steady_negation h σ
  | void => exact h.then <| keeps_constant _
  | delete => exact deletes σ
  | minus | plus | bitNot => exact h.then <| keeps_unary _

theorem steady_deleteName {name : String} (sees : J.Sees env name) :
    J.Steady env (deleteName name) (deleteName name) :=
  fun _ => (steady_isGlobalName (J.finds sees)).bind fun _ => .ite (fun _ => does_getTemp.step fun object =>
    (keeps_constant _).before <| (keeps_sta (by simp)).before <| (keeps_loadString name).before <|
    Does.before (keeps_emit [object] (by simp) rfl rfl) <| does_freeTemps 1 (.refl _)) fun _ =>
    keeps_constant _

include h in
theorem steady_deleteProperty {key key' : Lower KeyOperand} (keys : J.TakesKey env key key') :
    J.Steady env (deleteProperty operand key) (deleteProperty operand' key') :=
  fun _ => h.then <| does_storeTemp.step fun object => keys.bind fun _ =>
    (keeps_loadKey (by simp +contextual)).before <|
    Does.before (keeps_emit [object] (by simp) rfl rfl) <| does_freeKey.before <| does_freeTemps 1 (.refl _)

include h in
theorem steady_deleteValue : J.Steady env (deleteValue operand) (deleteValue operand') :=
  fun _ => h.then <| keeps_constant _

include left right in
theorem leads_nullishOperation {done : Label} : J.Leads env (σ.expect done)
      (nullishOperation lhs rhs done) (nullishOperation lhs' rhs' done) fun _ => σ :=
  left.then <| does_storeTemp.step fun _ => does_freshLabel.step fun _ =>
    (keeps_branchIfNullish (by simp) (by simp [Stage.Knows])).before <|
    (keeps_lda (by simp)).before <| (keeps_branch (by simp [Stage.Knows])).before <|
    (does_label 0 rfl).before <| (does_freeTemps 1 (.refl _)).before <| right.then <| does_label 0 rfl

include left right in
theorem leads_shortCircuit {jump : Label → Code} {keepLeft done : Label}
    (jumps : ∀ σ : Stage, σ.Knows keepLeft → J.Keeps env σ (jump keepLeft)) :
    J.Leads env ((σ.expect keepLeft).expect done) (shortCircuit jump lhs rhs keepLeft done)
      (shortCircuit jump lhs' rhs' keepLeft done) fun _ => σ :=
  left.then <| does_storeTemp.step fun _ => (jumps _ (by simp [Stage.Knows])).before <|
    right.then <| (keeps_branch (by simp [Stage.Knows])).before <| (does_label 1 rfl).before <|
    (keeps_lda (by simp)).before <| (does_label 0 rfl).before <| does_freeTemps 1 (.refl _)

include left right in
theorem steady_logicalOperation (op : LogicalOp) :
    J.Steady env (logicalOperation op lhs rhs) (logicalOperation op lhs' rhs') := by
  intro σ
  cases op with
  | and =>
    exact does_freshLabel.step fun _ => does_freshLabel.step fun _ =>
      leads_shortCircuit left right fun _ => keeps_jumpIfFalse
  | or =>
    exact does_freshLabel.step fun _ => does_freshLabel.step fun _ =>
      leads_shortCircuit left right fun _ => keeps_jumpIfTrue
  | nullish =>
    -- The label for the left operand is made, but this operator has no use for it.
    exact Leads.bind J.skip fun _ => does_freshLabel.step fun _ => leads_nullishOperation left right

/-! ## Conditions -/

/-- Code that may jump to a label. -/
def Tests (J : Judgement) (env : Env) (test test' : Label → Lower Unit) : Prop :=
  ∀ (l : Label) (σ : Stage), σ.Knows l → J.Leads env σ (test l) (test' l) fun _ => σ

include left right in
theorem steady_conditional {test test' : Label → Lower Unit} (tests : J.Tests env test test') :
    J.Steady env (conditional test lhs rhs) (conditional test' lhs' rhs') :=
  fun _ => does_freshLabel.step fun otherwise => does_freshLabel.step fun _ =>
    (tests otherwise _ (by simp [Stage.Knows])).then <| left.then <|
    (keeps_branch (by simp [Stage.Knows])).before <| (does_label 1 rfl).before <|
    right.then <| does_label 0 rfl

include left right in
theorem tests_comparison (op : BinaryOp) :
    J.Tests env (comparison op lhs rhs) (comparison op lhs' rhs') :=
  fun _ _ known => left.then <| does_storeTemp.step fun _ => right.then <|
    Does.before (keeps_condition op (by simp) known) <| does_freeTemps 1 (.refl _)

theorem tests_disjunction {lhs lhs' rhs rhs' : Label → Lower Unit} (left : J.Tests env lhs lhs')
    (right : J.Tests env rhs rhs') : J.Tests env (disjunction lhs rhs) (disjunction lhs' rhs') := by
  refine fun l σ known => does_freshLabel.step fun next => does_freshLabel.step fun taken => ?_
  have known' : (σ.expect taken).Knows l := by
    rcases known with waits | placed
    · exact .inl (.tail _ waits)
    · exact .inr placed
  exact (left next _ (by simp [Stage.Knows])).then <| (keeps_branch (by simp [Stage.Knows])).before <|
    (does_label 1 rfl).before <| (right l _ known').then <| does_label 0 rfl

include h in
theorem tests_jumpUnless : J.Tests env (jumpUnless operand) (jumpUnless operand') :=
  fun _ _ known => h.then <| keeps_jumpIfFalse known

end Operators

/-! ## Assignments -/

section Assignments

variable {target target' : Lower Target} (targets : J.Targets env target target')
  {value value' : Lower Unit} (values : J.Steady env value value')

include targets values in
theorem steady_assign : J.Steady env (assign target value) (assign target' value') :=
  fun _ => targets.bind fun _ sees => values.then <|
    (leads_storeTarget sees (by simp +contextual)).then does_freeTarget

include targets values in
theorem steady_compoundAssign (op : BinaryOp) :
    J.Steady env (compoundAssign op target value) (compoundAssign op target' value') :=
  fun σ => targets.bind fun t sees =>
    (leads_loadTarget sees (by simp +contextual)).then <| does_storeTemp.step fun _ =>
    values.then <| (keeps_binary op (by simp)).before <| (does_freeTemps 1 (.refl _)).before <|
    (leads_storeTarget (σ := σ.hold t.temps) sees (by simp +contextual)).then does_freeTarget

include targets in
theorem steady_updateOperation (op : UpdateOp) (isPrefix : Bool) :
    J.Steady env (updateOperation op isPrefix target) (updateOperation op isPrefix target') := by
  refine fun σ => targets.bind fun t sees =>
    (leads_loadTarget sees (by simp +contextual)).then <| (keeps_unary _).before <|
    .ite (fun _ => ?_) fun _ => ?_
  · cases op <;> exact (keeps_unary _).before <|
      (leads_storeTarget sees (by simp +contextual)).then does_freeTarget
  · refine does_storeTemp.step fun _ => ?_
    cases op <;> exact (keeps_unary _).before <|
      (leads_storeTarget sees (by simp +contextual)).then <| (keeps_lda (by simp)).before <|
      (does_freeTemps 1 (.refl _)).before does_freeTarget

include targets in
theorem leads_storeRegister {register : Register} (own : register ∈ σ.temps) :
    J.Leads env σ (storeRegister target register) (storeRegister target' register) fun _ => σ :=
  targets.bind fun _ sees => (keeps_lda (by simp [own])).before <|
    (leads_storeTarget sees (by simp +contextual)).then does_freeTarget

end Assignments

end Judgement

end AccScript
