import AccScript.Proofs.Assembly.Reference
import AccScript.Proofs.Judgement.Unit

/-!
# Expressions

The code of every expression, pattern, class and declaration gives back all it takes.  It may run the
initializers of instance fields, which must do the same.
-/

namespace AccScript

open Asm Lower

variable {α : Type} {G : Guard} {σ : Stage} {env : Env}

/-- Whether the registers and labels of an instruction are those of the stage. -/
theorem Instruction.usable_of_isPlain {i : Instruction} {rs : List Register}
    (mem : ∀ r ∈ rs, r ∈ σ.temps) (needs : ∀ r, .temp r ∈ i.needs → r ∈ rs)
    (plain : i.isPlain = true) : i.Usable σ := by
  refine ⟨?_, fun r own => mem r (needs r ?_), ?_⟩
  · cases i <;> first | rfl | cases plain
  · exact List.mem_append_left _ (List.mem_append_left _ (List.mem_map_of_mem own))
  · cases i <;> simp_all [target?, isPlain]

/-- Code flows from stage to stage if the initializers of instance fields are neutral. -/
@[reducible] def flowing : Judgement where
  ledger := .blank
  Leads env σ m _ τ := Neutral env.fieldInit → ∀ G, Flows G σ (m env) τ
  ret x _ _ := .pure x
  chain first next fields G := (first fields G).follow fun x => next x fields G
  fail excused _ _ _ := .throw excused.blameless
  inspect h fields G := .inspect fun a _ => h a fields G
  consult h fields G := .read (h [] (pure ()) fields G)
  anchor h := h False.elim
  fresh _ _ := flows_freshLabel
  skip _ _ := flows_skipLabel
  mark index h _ _ := flows_mark index h
  forget l h fields G := .forget l (h fields G)
  use mem needs plain _ _ :=
    flows_emit (Instruction.usable_of_isPlain mem (by simp [needs]) plain)
  jump {_ _ i l} knows target _ _ := by
    cases i <;> first | exact flows_jump l knows target rfl rfl | cases target
  take _ _ := flows_getTemp
  give same _ _ := flows_free _ same
  named s := fun mem fits => fun h fields G => (neutral_intern s).step fun id => (h fields G).then <|
    flows_emit (Instruction.usable_of_isPlain mem (by simp [(fits id).1]) (fits id).2)
  literal buffer := fun fits _ _ => (neutral_addLiteral buffer).step fun k =>
    flows_emit (Instruction.usable_of_isPlain (List.forall_mem_nil _) (by simp [(fits k).1])
      (fits k).2)
  position p _ G := neutral_atPosition p G _
  Finds env m := Neutral (m env)
  Holds _ _ := True
  find finds h fields G := finds.follow fun place => h place trivial fields G
  finds _ := neutral_resolveName _
  Ready _ := True
  modules h := h fun _ _ _ _ => trivial
  settle _ _ G := neutral_markInitialized _ G _
  loadSlot _ _ G := neutral_emitAt rfl rfl G _
  storeSlot _ _ G := neutral_emitAt rfl rfl G _
  loadOwn v _ _ h fields G := (neutral_mayBeUninitialized v).follow fun _ =>
    .choose (fun _ => h fields G) fun _ => neutral_loadRegister v G _
  storeOwn v _ G := neutral_storeRegister v G _
  initOwn v _ G := neutral_initializeRegister v G _
  fields h fields G := .read <| .choose (fun _ => fields.before (h fields G)) fun _ => h fields G
  Hosts _ _ := True
  hosts _ := trivial
  function _ _ G := neutral_defineFunction _ G _
  method isStrict _ _ G := neutral_defineMethod _ isStrict G _
  classDef {_ _ _} _ {_ _ _ _ _} bases bound inside fields G :=
    neutral_defineClass _ (fun G σ => bases σ fields G)
      (fun scope object G σ own => inside ⟨scope, 0, scope⟩ False.elim object σ own fields G)
      (fun name mem G σ => bound name mem σ fields G) G _

/-! ## Code of any unit -/

/-- Code that gives back all it takes, if the initializers of instance fields do. -/
def Tame (code : Lower α) : Prop :=
  ∀ env, Neutral env.fieldInit → Neutral (code env)

/-- Code that may jump to a label. -/
def TameTest (test : Label → Lower Unit) : Prop :=
  ∀ env, Neutral env.fieldInit → ∀ l G σ, σ.Knows l → Flows G σ (test l env) fun _ => σ

/-- Code that works on a temporary of the code around. -/
def TameBinding (bind : Register → Lower Unit) : Prop :=
  ∀ env, Neutral env.fieldInit → ∀ r G σ, r ∈ σ.temps → Flows G σ (bind r env) fun _ => σ

theorem Tame.of_steady {m m' : Lower α} (h : ∀ env, flowing.Steady env m m') : Tame m :=
  fun env fields G σ => h env σ fields G

theorem Tame.of_optional {code code' : Option (Lower Unit)}
    (h : ∀ env, flowing.Optional env code code') : ∀ c ∈ code, Tame c := by
  rintro c ⟨⟩ env
  cases h env with
  | some first => exact fun fields G σ => first σ fields G

theorem TameTest.of_tests {test test' : Label → Lower Unit} (h : ∀ env, flowing.Tests env test test') :
    TameTest test :=
  fun env fields l G σ known => h env l σ known fields G

theorem TameBinding.of_uses {bind bind' : Register → Lower Unit}
    (h : ∀ env, flowing.Uses env bind bind') : TameBinding bind :=
  fun env fields r G σ own => h env r σ own fields G

theorem tame_loadVariable (name : String) : Tame (loadVariable name) :=
  .of_steady fun _ => Judgement.steady_load False.elim

theorem tame_declareVariable (name : String) : Tame (declareVariable name) :=
  .of_steady fun _ => Judgement.steady_store true False.elim

/-! ## Trees -/

section

variable (fields : Neutral env.fieldInit)

include fields

theorem Expr.lower_neutral (e : Expr) : Neutral (e.lower env) :=
  fun G σ => e.steady_lower (J := flowing) (e.surveyed_blank _) σ fields G

theorem ClassNode.initializeFields_neutral (c : ClassNode) :
    Neutral (initializeFields (ClassMember.lowerEach c.members) env) := by
  refine fun G σ => .choose (fun _ => Neutral.pure () G σ) fun _ => ?_
  have all := @ClassMember.fields_lowerEach flowing
    { env with scope := env.functionScope, inFields := true } c.members
    (c.fieldSurveyed_blank _ _)
  exact Judgement.steady_fieldCode (J := flowing) False.elim (Judgement.instanceFields_bare all) σ
    fields G

end

theorem Expr.lower_tame (e : Expr) : Tame e.lower :=
  fun _ fields => e.lower_neutral fields

theorem Expr.lower?_tame (e : Option Expr) : ∀ code ∈ Expr.lower? e, Tame code :=
  .of_optional fun _ => Expr.steady_lower? e (Expr.surveyedOption_blank _ e)

theorem Expr.lowerCondition_tame (e : Expr) : TameTest e.lowerCondition :=
  .of_tests fun _ => e.tests_lowerCondition (e.surveyed_blank _)

theorem Expr.lowerTest_tame (test : Option Expr) : TameTest (Expr.lowerTest test) :=
  .of_tests fun _ => Expr.tests_lowerTest (Expr.surveyedOption_blank _ test)

theorem BindingTarget.lower?_tame (target : Option BindingTarget) (mode : BindingMode) :
    ∀ code ∈ BindingTarget.lower? target mode, Tame code := by
  rintro code mem
  cases target with
  | none => cases mem
  | some target =>
    cases mem
    exact .of_steady fun _ => target.steady_lower mode (target.surveyed_blank _) False.elim

theorem ClassNode.lower_tame (c : ClassNode) (binding : Option String) : Tame (c.lower binding) :=
  .of_steady fun _ => c.steady_lower binding (c.surveyed_blank _) fun _ _ =>
    Judgement.steady_store true False.elim

theorem Declaration.lower_tame (d : Declaration) : Tame d.lower :=
  .of_steady fun _ => Declaration.steady_lower (d.surveyed_blank _)

theorem ForHead.lower?_tame (head : Option ForHead) : ∀ code ∈ head.map ForHead.lower, Tame code := by
  intro code mem
  obtain ⟨head, -, rfl⟩ := Option.map_eq_some_iff.mp mem
  exact .of_steady fun _ => ForHead.steady_lower (head.surveyed_blank _)

theorem ForHead.lowerIteration_tame (head : ForHead) :
    TameBinding fun value => head.lowerIteration value :=
  .of_uses fun _ => ForHead.uses_lowerIteration (head.surveyed_blank _)

theorem tame_instantiateFunction (statement : Statement) : Tame (instantiateFunction statement) :=
  .of_steady fun _ => Judgement.steady_instantiateFunction (statement.surveyed_blank _)

theorem tame_instantiateFunctions (statements : List Statement) :
    Tame (instantiateFunctions statements) :=
  .of_steady fun _ => Judgement.steady_instantiateFunctions fun statement _ =>
    statement.surveyed_blank _

end AccScript
