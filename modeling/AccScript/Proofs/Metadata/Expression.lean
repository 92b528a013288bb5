import AccScript.Proofs.Judgement.Unit
import AccScript.Proofs.Metadata.Reference

/-!
# The echo of expressions

The code of every expression, pattern, class and declaration echoes the code of its bare form.
-/

namespace AccScript

open Asm Lower

variable {E : VariableId → Prop} {Γ : List Resource}

/-- What is left at hand are the temporaries of a stage. -/
theorem EchoesIn.keep {α : Type} {env : Env} {σ : Stage} {m m' : Lower α}
    {out : α → List Resource} {τ : α → Stage} (h : EchoesIn E env (temps σ.temps) m m' out)
    (more : ∀ x, temps (τ x).temps ⊆ out x ++ temps σ.temps) :
    EchoesIn E env (temps σ.temps) m m' fun x => temps (τ x).temps :=
  fun Δ env' own matched => (h Δ env' own matched).keep fun x =>
    List.Subset.trans (more x) (Resource.append_subset_append own)

/-- Code that leaves nothing ends at the stage where it began. -/
theorem EchoesIn.stay {α : Type} {env : Env} {σ : Stage} {m m' : Lower α}
    (h : Echoes E (temps σ.temps) m m') :
    EchoesIn E env (temps σ.temps) m m' fun _ => temps σ.temps :=
  .keep (τ := fun _ => σ) h.inEnv fun _ => List.Subset.refl _

theorem EchoesIn.named {env : Env} {σ : Stage} (s : String) {i : StringId → Instruction}
    {rs : List Register} (mem : ∀ r ∈ rs, r ∈ σ.temps)
    (needs : ∀ id, (i id).needs = temps rs ++ [.string id]) {m m' : Lower Unit}
    (h : EchoesIn E env (temps σ.temps) m m' fun _ => temps σ.temps) :
    EchoesIn E env (temps σ.temps)
      (liftM (intern s) >>= fun id => m >>= fun _ => liftM (emit (i id)))
      (liftM (intern s) >>= fun id => m' >>= fun _ => liftM (emit (i id)))
      fun _ => temps σ.temps := by
  refine (echo_intern s).lift.inEnv.bind fun id => ?_
  have within : EchoesIn E env ([.string id] ++ temps σ.temps) m m' fun _ => temps σ.temps :=
    fun Δ env' own => h Δ env' (List.append_subset.mp own).2
  refine within.bind fun _ Δ env' own matched => ?_
  have has : (i id).needs ⊆ Δ := by
    rw [needs id]
    obtain ⟨held, own⟩ := List.append_subset.mp own
    refine List.append_subset.mpr ⟨?_, (List.append_subset.mp own).1⟩
    exact List.Subset.trans (List.map_subset _ mem) held
  exact (echo_emit _ rfl has).keep fun _ => (List.append_subset.mp own).1

theorem EchoesIn.loadRegister {env : Env} {σ : Stage} (v : VariableId) {m m' : Lower Unit}
    (h : EchoesIn E env (temps σ.temps) m m' fun _ => temps σ.temps) :
    EchoesIn E env (temps σ.temps)
      (mayBeUninitialized v >>= fun hole => if hole then m else liftM (registerFor v >>= lda))
      (mayBeUninitialized v >>= fun hole => if hole then m' else liftM (registerFor v >>= lda))
      fun _ => temps σ.temps := by
  refine (resounds_mayBeUninitialized v _).inEnv.bind fun hole Δ env' own matched => ?_
  cases hole with
  | true => exact h Δ env' own matched
  | false =>
    obtain ⟨ready, own⟩ := List.cons_subset.mp own
    exact (echo_loadRegister ready).keep fun _ => own

theorem Env.Matches.callsOwnConstructor {env env' : Env} (h : env.Matches E Γ env') :
    env'.callsOwnConstructor = env.callsOwnConstructor := by
  rw [h.same]
  exact congrArg (fun s => decide (s = env.functionScope)) (env.tree.nearestNonArrowScope_untyped _)

theorem Instruction.needs_eq_nil {i : Instruction} {l : Label} (target : i.target? = some l) :
    i.needs = [] := by
  cases i <;> first | rfl | cases target

/-- Code echoes, with the temporaries of a stage at hand. -/
@[reducible] def echoing (E : VariableId → Prop) : Judgement where
  ledger := .blank
  Leads env σ m m' τ := EchoesIn E env (temps σ.temps) m m' fun x => temps (τ x).temps
  ret _ _ _ own _ := Echo.pure fun _ mem => own mem
  chain first next Δ env' own matched := Echo.bind_of _ _ (first Δ env' own matched) fun x =>
    next x _ env' (List.subset_append_left _ _) (matched.weaken (List.subset_append_right _ _))
  fail _ same _ _ _ _ := Echo.throw same
  inspect h Δ env' own matched := Echo.get fun a => h a Δ env' own matched
  consult h Δ env' own matched := by
    have inner := h env'.finalizers env'.fieldInit Δ env' own matched
    rw [← matched.same] at inner
    exact inner
  anchor h := h False.elim
  fresh := .keep echo_freshLabel.lift.inEnv fun _ => List.Subset.refl _
  skip := .stay echo_freshLabel.lift
  mark _ _ := .keep (echo_label _).lift.inEnv fun _ => List.Subset.refl _
  forget _ h := h
  use mem needs _ := .stay (echo_emit _ needs fun _ have_ => List.map_subset _ mem have_).lift
  jump _ target := .stay (echo_plain (Instruction.needs_eq_nil target)).lift
  take := .keep echo_getTemp.lift.inEnv fun _ => List.Subset.refl _
  give same := .keep (τ := fun _ => _) (echo_freeTemps fun _ mem => List.map_subset _
      (fun _ own => same.mem_iff.mpr (List.mem_append_left _ own)) mem).lift.inEnv fun _ =>
    List.map_subset _ fun _ own => same.mem_iff.mpr (List.mem_append_right _ own)
  named s := fun mem fits => fun h => .named s mem (fun id => (fits id).1) h
  literal buffer := fun fits => .stay <| (echo_addLiteral buffer).step fun k =>
    (echo_emit _ (fits k).1 (by simp)).lift
  position p := .stay (echo_atPosition p).lift
  Finds _ m := Resonates E m
  Holds _ _ := True
  find finds h := (finds _).inEnv.bind fun place => h place trivial
  finds _ := resounds_resolveName _
  Ready := E
  modules h Δ env' own matched :=
    h (fun v data found isModule => matched.exempt v data found (.inr isModule)) Δ env' own matched
  settle ready := .stay (echo_markInitialized ready).lift
  loadSlot _ := .stay (echoes_plainAt _ rfl)
  storeSlot _ := .stay (echoes_plainAt _ rfl)
  loadOwn v _ _ h := .loadRegister v h
  storeOwn v := .stay (echo_storeRegister v).lift
  initOwn v := .stay (echo_initializeRegister v).lift
  fields {env _ m m' _} h Δ env' own matched := by
    have rest := h Δ env' own matched
    show Echo E Δ ((if env.callsOwnConstructor then liftM env.fieldInit >>= fun _ => m else m) env)
      ((if env'.callsOwnConstructor then liftM env'.fieldInit >>= fun _ => m' else m') env') _
    rw [matched.callsOwnConstructor]
    cases env.callsOwnConstructor with
    | true => exact matched.fieldInit.then rest
    | false => exact rest
  Hosts _ _ := True
  hosts _ := trivial
  function _ := .stay (resounds_defineFunction _ _)
  method isStrict _ := .stay (resounds_defineMethod _ isStrict _)
  classDef := fun _ => fun bases bound inside => .keep (τ := fun _ => _)
    (echoes_defineClass _ (bases {}) (fun scope object Δ env' own matched =>
      (inside ⟨scope, 0, scope⟩ False.elim object (Stage.hold {} [object]) (.head _) Δ env' own
        matched).keep fun _ => List.nil_subset _) fun name mem => bound name mem {})
    fun _ => List.Subset.refl _

/-! ## Pieces of statements -/

/-- Code that may jump to a label. -/
abbrev ResoundsTest (E : VariableId → Prop) (test test' : Label → Lower Unit) : Prop :=
  ∀ ifFalse, Resounds E (test ifFalse) (test' ifFalse)

/-- Code that may be left out. -/
abbrev ResoundsOption (E : VariableId → Prop) : Option (Lower Unit) → Option (Lower Unit) → Prop :=
  Option.Rel fun c c' => Resounds E c c'

theorem Resounds.getD {code code' : Option (Lower Unit)} (h : ResoundsOption E code code')
    {default default' : Lower Unit} (otherwise : Resounds E default default') :
    Resounds E (code.getD default) (code'.getD default') := by
  cases h with
  | none => exact otherwise
  | some h => exact h

/-- Code that works on a temporary of the code around. -/
abbrev EchoesOn (E : VariableId → Prop) (code code' : Register → Lower Unit) : Prop :=
  ∀ (Γ : List Resource) (r : Register), .temp r ∈ Γ → Echoes E Γ (code r) (code' r)

/-! ## Trees -/

/-- Code that works on some temporaries needs nothing else. -/
theorem Echoes.of_leads {m m' : Lower Unit} {τ : Unit → Stage} (registers : List Register)
    (own : temps registers ⊆ Γ)
    (h : ∀ env, (echoing E).Leads env (Stage.hold {} registers) m m' τ) : Echoes E Γ m m' := by
  refine fun Δ env env' more matched => (h env Δ env' ?_ matched).keep fun _ => List.nil_subset _
  simpa [Stage.hold] using List.Subset.trans own more

theorem Resounds.of_steady {m m' : Lower Unit} (h : ∀ env, (echoing E).Steady env m m') :
    Resounds E m m' :=
  fun _ Δ env env' _ matched => h env {} Δ env' (List.nil_subset _) matched

theorem Expr.resounds_lower (e : Expr) : Resounds E e.lower e.bare.lower :=
  .of_steady fun _ => e.steady_lower (e.surveyed_blank _)

theorem Expr.resounds_lower? (e : Option Expr) :
    ResoundsOption E (Expr.lower? e) (Expr.lower? (Expr.bare? e)) := by
  cases e with
  | none => exact .none
  | some e => exact .some e.resounds_lower

theorem Expr.resounds_lowerCondition (e : Expr) :
    ResoundsTest E e.lowerCondition e.bare.lowerCondition :=
  fun l _ Δ _ env' _ matched => e.tests_lowerCondition (J := echoing E) (e.surveyed_blank _) l
    (Stage.know {} l) (.inr (.head _)) Δ env' (List.nil_subset _) matched

theorem BindingTarget.resounds_lower? (target : Option BindingTarget) (mode : BindingMode) :
    ResoundsOption E (BindingTarget.lower? target mode)
      (BindingTarget.lower? (BindingTarget.bare? target) mode) := by
  cases target with
  | none => exact .none
  | some target =>
    exact .some (.of_steady fun _ => target.steady_lower mode (target.surveyed_blank _) False.elim)

theorem resounds_loadVariable (name : String) : Resonates E (loadVariable name) :=
  .of_steady fun _ => Judgement.steady_load False.elim

theorem resounds_declareVariable (name : String) : Resonates E (declareVariable name) :=
  .of_steady fun _ => Judgement.steady_store true False.elim

theorem ClassNode.resounds_lower (c : ClassNode) (binding : Option String) :
    Resounds E (c.lower binding) (c.bare.lower binding) :=
  .of_steady fun _ => c.steady_lower binding (c.surveyed_blank _) fun _ _ =>
    Judgement.steady_store true False.elim

theorem Declaration.resounds_lower (d : Declaration) : Resounds E d.lower d.bare.lower :=
  .of_steady fun _ => Declaration.steady_lower (d.surveyed_blank _)

theorem ForHead.resounds_lower? (head : Option ForHead) :
    ResoundsOption E (head.map ForHead.lower) ((ForHead.bare? head).map ForHead.lower) := by
  cases head with
  | none => exact .none
  | some head => exact .some (.of_steady fun _ => ForHead.steady_lower (head.surveyed_blank _))

theorem ForHead.echoes_lowerIteration (head : ForHead) :
    EchoesOn E (fun value => head.lowerIteration value) fun value => head.bare.lowerIteration value :=
  fun _ r own => .of_leads [r] (by simpa using own) fun _ =>
    ForHead.uses_lowerIteration (head.surveyed_blank _) r _ (.head _)

theorem Expr.resounds_lowerTest (test : Option Expr) :
    ResoundsTest E (Expr.lowerTest test) (Expr.lowerTest (Expr.bare? test)) := by
  cases test with
  | none => exact fun _ _ => .done
  | some test => exact test.resounds_lowerCondition

theorem resounds_instantiateFunction (statement : Statement) :
    Resounds E (instantiateFunction statement) (instantiateFunction statement.bare) :=
  .of_steady fun _ => Judgement.steady_instantiateFunction (statement.surveyed_blank _)

theorem resounds_instantiateFunctions (statements : List Statement) :
    Resounds E (instantiateFunctions statements) (instantiateFunctions (statements.map .bare)) :=
  .of_steady fun _ => Judgement.steady_instantiateFunctions fun statement _ =>
    statement.surveyed_blank _

theorem ClassNode.resounds_initializeFields (c : ClassNode) :
    Resounds E (initializeFields (ClassMember.lowerEach c.members))
      (initializeFields (ClassMember.lowerEach c.bare.members)) := by
  intro Γ Δ env env' _ matched
  have all := Judgement.instanceFields_bare <| @ClassMember.fields_lowerEach (echoing E)
    { env with scope := env.functionScope, inFields := true } c.members
    (c.fieldSurveyed_blank _ _)
  have same : c.bare.members = ClassMember.bareList c.members := by cases c; rfl
  rw [same]
  unfold initializeFields
  generalize instanceFields (ClassMember.lowerEach c.members) = own,
    instanceFields (ClassMember.lowerEach (ClassMember.bareList c.members)) = own' at all ⊢
  cases all with
  | nil => exact .done
  | cons first rest =>
    exact Judgement.steady_fieldCode (J := echoing E) False.elim (.cons first rest) {} Δ _
      (List.nil_subset _) matched.inFields

end AccScript
