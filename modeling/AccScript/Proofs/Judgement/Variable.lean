import AccScript.Proofs.Judgement.Rules

/-!
# Variables

A variable is found by its name, or at a known place of the unit, and then loaded or stored in the
way that its place asks for.
-/

namespace AccScript

open Asm Lower

theorem isOwnClassName_recast (env : Env) (finalizers : List Code) (fieldInit : Code) (v : VariableId)
    (data : Variable) :
    isOwnClassName (env.recast finalizers fieldInit) v data.untyped = isOwnClassName env v data := by
  have chain : (env.recast finalizers fieldInit).tree.ancestors env.scope =
      env.tree.ancestors env.scope := env.tree.ancestors_untyped _
  have find (s : ScopeId) (name : String) :
      ((env.recast finalizers fieldInit).tree.find? s name).map Prod.fst =
        (env.tree.find? s name).map Prod.fst :=
    congrArg (Option.map Prod.fst) (env.tree.find?_untyped s name)
  show (decide (data.kind = .cls) &&
    ((env.recast finalizers fieldInit).tree.ancestors env.scope).any fun s =>
      decide (env.survey.classBindings.get? s = some data.name) &&
      decide (((env.recast finalizers fieldInit).tree.find? s data.name).map Prod.fst = some v)) = _
  simp only [chain, find]
  rfl

namespace Judgement

variable {α : Type} {J : Judgement} {env : Env} {σ : Stage} {τ : α → Stage} {v : VariableId}
  (name : String)

/-! ## Globals -/

theorem Does.get {f f' : Assembler → Asm α} (h : ∀ a : Assembler, J.Does env σ (f a) (f' a.bare) τ) :
    J.Does env σ (MonadState.get >>= f) (MonadState.get >>= f') τ :=
  J.inspect h

theorem keeps_globalAccess (access : GlobalAccess) : J.Keeps env σ (globalAccess access name) :=
  keeps_named name [] nofun fun _ => ⟨rfl, rfl⟩

theorem keeps_storeViaDebugger : J.Keeps env σ (storeViaDebugger name) :=
  does_getTemp.bind fun value => (keeps_sta (by simp)).then <| does_getTemp.bind fun setter =>
    (keeps_constant _).then <| (keeps_sta (by simp)).then <|
    (keeps_loadProperty (by simp) (by simp [KeyOperand.temps])).then <|
    (keeps_sta (by simp)).then <| does_getTemp.bind fun argument => (keeps_loadString _).then <|
    (keeps_sta (by simp)).then <| (keeps_lda (by simp)).then <|
    Does.bind (keeps_emit [argument, value] (by simp) rfl rfl) fun _ => (keeps_lda (by simp)).then <|
    does_freeTemps 3 (List.reverse_perm [value, setter, argument])

theorem keeps_tryLoadGlobal : J.Keeps env σ (tryLoadGlobal name) :=
  .get fun _ => .ite (fun _ => keeps_loadViaDebugger name true) fun _ => keeps_globalAccess name _

theorem keeps_tryStoreGlobal : J.Keeps env σ (tryStoreGlobal name) :=
  .get fun _ => .ite (fun _ => keeps_storeViaDebugger name) fun _ => keeps_globalAccess name _

theorem keeps_throwIfHole : J.Keeps env σ (throwIfHole name) :=
  keeps_named name [] nofun fun _ => ⟨rfl, rfl⟩

theorem keeps_throwConstAssignment : J.Keeps env σ (throwConstAssignment name) :=
  does_getTemp.bind fun r => (keeps_loadString name).then <| (keeps_sta (by simp)).then <|
    Does.bind (keeps_emit [r] (by simp) rfl rfl) fun _ => does_freeTemps 1 (.refl _)

theorem keeps_loadUnbound : J.Keeps env σ (loadUnbound name) := by
  unfold loadUnbound
  split
  case h_5 => exact keeps_tryLoadGlobal name
  all_goals exact keeps_constant _

/-! ## Questions -/

/-- A value that must be there. -/
theorem Leads.required {β γ : Type} {R : β → γ → Prop} {x : Option β} {x' : Option γ}
    (related : Option.Rel R x x') {f : β → Lower α} {f' : γ → Lower α}
    (next : ∀ y y', x = some y → R y y' → J.Leads env σ (f y) (f' y') τ) :
    J.Leads env σ (liftM (orBroken x) >>= f) (liftM (orBroken x') >>= f') τ := by
  cases related with
  | none => exact J.fail ⟨Failure.not_blames_unmet, .broken⟩ rfl
  | some related => exact next _ _ rfl related

theorem Leads.variableData {f f' : Variable → Lower α} (h : ∀ data, env.tree.var? v = some data →
      J.Leads env σ (f data) (f' data.untyped) τ) :
    J.Leads env σ (Lower.variableData v >>= f) (Lower.variableData v >>= f') τ := by
  rw [Lower.variableData, bind_assoc, bind_assoc]
  refine J.consult fun finalizers fieldInit => .required (R := fun x x' => x' = x.untyped) ?_ ?_
  · have same : (env.recast finalizers fieldInit).tree.var? v = (env.tree.var? v).map Variable.untyped :=
      env.tree.var?_untyped v
    rw [same]
    cases env.tree.var? v with
    | none => exact .none
    | some data => exact .some rfl
  · rintro data _ found rfl
    exact h data found

variable (v) in
theorem steady_mayBeUninitialized :
    J.Steady env (mayBeUninitialized v) (mayBeUninitialized v) :=
  fun σ => .variableData fun _ _ => J.inspect fun _ => J.ret (τ := fun _ => σ) _

variable (v) in
theorem steady_hasDeadZone : J.Steady env (hasDeadZone v) (hasDeadZone v) :=
  fun σ => .variableData fun _ _ => J.ret (τ := fun _ => σ) _

variable (v) in
theorem steady_isImmutable : J.Steady env (isImmutable v) (isImmutable v) := by
  refine fun σ => .variableData fun data _ => J.consult fun finalizers fieldInit => ?_
  rw [isOwnClassName_recast]
  exact J.ret (τ := fun _ => σ) _

theorem Leads.moduleSlot {f f' : Nat × Bool → Lower α}
    (h : ∀ slot, J.Ready v → J.Leads env σ (f slot) (f' slot) τ) :
    J.Leads env σ (Lower.moduleSlot v >>= f) (Lower.moduleSlot v >>= f') τ := by
  rw [Lower.moduleSlot, bind_assoc, bind_assoc]
  refine J.modules fun modules => .variableData fun data found => ?_
  have ready := modules v data found
  rw [show data.untyped.storage = data.storage from rfl]
  cases stored : data.storage with
  | module index isExternal =>
    rw [pure_bind, pure_bind]
    exact h _ (ready (by simp [Variable.isModule, stored]))
  | _ => exact J.fail ⟨Failure.not_blames_unmet, .broken⟩ rfl

theorem steady_isUnscoped {name : String} (finds : J.Finds env (resolveName name)) :
    J.Steady env (isUnscoped name) (isUnscoped name) := by
  refine fun σ => J.find finds fun place _ => ?_
  cases place with
  | global v => exact .variableData fun _ _ => J.ret (τ := fun _ => σ) _
  | _ => exact J.ret (τ := fun _ => σ) _

theorem steady_isGlobalName {name : String} (finds : J.Finds env (resolveName name)) :
    J.Steady env (isGlobalName name) (isGlobalName name) := by
  refine fun σ => J.find finds fun place _ => ?_
  cases place <;> exact J.ret (τ := fun _ => σ) _

/-! ## Loads -/

theorem steady_loadResolved {place : Resolution} (holds : J.Holds env place) :
    J.Steady env (loadResolved name place) (loadResolved name place) := by
  intro σ
  cases place with
  | unresolved => exact keeps_loadUnbound name
  | global v =>
    refine .variableData fun data _ => ?_
    rw [show data.untyped.kind = data.kind from rfl]
    cases data.kind with
    | var | function => exact keeps_globalAccess name _
    | _ => exact keeps_tryLoadGlobal name
  | globalRecord v => exact keeps_tryLoadGlobal name
  | module v =>
    refine .moduleSlot fun slot _ => .ite (fun _ => keeps_plain rfl rfl) fun _ =>
      Does.before (keeps_plain rfl rfl) <| (steady_mayBeUninitialized v).bind fun _ => ?_
    exact .ite (fun _ => keeps_throwIfHole name) fun _ => Steady.pure () σ
  | register v =>
    exact J.loadOwn v ((keeps_constant _).before <| keeps_throwIfHole name)
  | lexical v level slot =>
    refine Leads.then (J.loadSlot holds) <| (steady_hasDeadZone v).bind fun _ => ?_
    exact .ite (fun _ => keeps_throwIfHole name) fun _ => Steady.pure () σ

variable {name}

theorem steady_loadVariable (finds : J.Finds env (resolveName name)) :
    J.Steady env (loadVariable name) (loadVariable name) :=
  fun σ => J.find finds fun _ holds => steady_loadResolved name holds σ

theorem steady_load (sees : J.Sees env name) : J.Steady env (loadVariable name) (loadVariable name) :=
  steady_loadVariable (J.finds sees)

theorem steady_loadLocal (finds : J.Finds env (localResolution v)) :
    J.Steady env (loadLocal v) (loadLocal v) :=
  fun σ => .variableData fun data _ => J.find finds fun _ holds => steady_loadResolved data.name holds σ

/-! ## Stores -/

variable (name) in
theorem steady_storeByName : J.Steady env (storeByName name) (storeByName name) :=
  fun _ => J.consult fun _ _ => .ite (fun _ => keeps_tryStoreGlobal name) fun _ =>
    keeps_globalAccess name _

theorem steady_guardedStore {needsCheck : Bool} {load store : Lower Unit} (loads : J.Steady env load load)
    (stores : J.Steady env store store) :
    J.Steady env (guardedStore name v needsCheck load store)
      (guardedStore name v needsCheck load store) := by
  have write : J.Steady env (do if ← isImmutable v then throwConstAssignment name else store)
      (do if ← isImmutable v then throwConstAssignment name else store) := fun σ =>
    (steady_isImmutable v).bind fun _ => .ite (fun _ => keeps_throwConstAssignment name) fun _ => stores σ
  refine fun σ => .ite (fun _ => Leads.then ?_ (write σ)) fun _ => write σ
  exact does_storeTemp.step fun _ => loads.then <| (keeps_throwIfHole name).before <|
    (keeps_lda (by simp)).before <| does_freeTemps 1 (.refl _)

variable (name) in
theorem steady_storeResolved (isDeclaration : Bool) {place : Resolution} (holds : J.Holds env place) :
    J.Steady env (storeResolved name isDeclaration place) (storeResolved name isDeclaration place) := by
  intro σ
  cases place with
  | unresolved => exact steady_storeByName name σ
  | global v =>
    refine .variableData fun data _ => ?_
    rw [show data.untyped.kind = data.kind from rfl]
    cases data.kind with
    | var | function => exact keeps_globalAccess name _
    | _ => exact steady_storeByName name σ
  | globalRecord v =>
    refine .ite (fun _ => .variableData fun _ _ => keeps_globalAccess name _) fun _ => ?_
    exact (steady_isImmutable v).bind fun _ => .ite (fun _ => keeps_throwConstAssignment name) fun _ =>
      keeps_tryStoreGlobal name
  | module v =>
    refine .moduleSlot fun slot ready => .ite (fun _ => keeps_throwConstAssignment name) fun _ =>
      .ite (fun _ => Does.before (keeps_plain rfl rfl) (J.settle ready)) fun _ => ?_
    exact (steady_mayBeUninitialized v).bind fun _ =>
      steady_guardedStore (fun _ => keeps_plain rfl rfl) (fun _ => keeps_plain rfl rfl) σ
  | register v =>
    refine .ite (fun _ => J.initOwn v) fun _ => (steady_mayBeUninitialized v).bind fun _ => ?_
    exact steady_guardedStore (fun _ => keeps_constant _) (fun _ => J.storeOwn v) σ
  | lexical v level slot =>
    refine .ite (fun _ => J.storeSlot holds) fun _ => (steady_hasDeadZone v).bind fun _ => ?_
    exact steady_guardedStore (fun _ => J.loadSlot holds) (fun _ => J.storeSlot holds) σ

theorem steady_storeVariable (isDeclaration : Bool) (finds : J.Finds env (resolveName name)) :
    J.Steady env (storeVariable name isDeclaration) (storeVariable name isDeclaration) :=
  fun σ => J.find finds fun _ holds => steady_storeResolved name isDeclaration holds σ

theorem steady_store (isDeclaration : Bool) (sees : J.Sees env name) :
    J.Steady env (storeVariable name isDeclaration) (storeVariable name isDeclaration) :=
  steady_storeVariable isDeclaration (J.finds sees)

theorem steady_declareLocal (finds : J.Finds env (localResolution v)) :
    J.Steady env (declareLocal v) (declareLocal v) :=
  fun σ => .variableData fun data _ => J.find finds fun _ holds =>
    steady_storeResolved data.name true holds σ

/-! ## `this` -/

theorem steady_loadThis (sees : J.Sees env HiddenName.this) : J.Steady env loadThis loadThis := by
  refine fun σ => J.inspect fun _ => .ite (fun _ => keeps_loadViaDebugger _ true) fun _ => ?_
  refine (steady_load sees).then <| J.consult fun finalizers fieldInit => ?_
  rw [inDerivedConstructor_recast]
  exact .ite (fun _ => keeps_plain rfl rfl) fun _ => Steady.pure () σ

end Judgement

end AccScript
