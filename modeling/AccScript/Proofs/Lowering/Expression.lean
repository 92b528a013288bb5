import AccScript.Proofs.Lowering.ClassBody

/-!
# Expressions

The code of every expression, pattern and class is calm.
-/

namespace AccScript

open Asm Lower

variable {α β : Type} {S : Setting} {env : Env} {σ : Stage} {l : Label}

/-! ## Calm code from stage to stage -/

/-- Code keeps its frame and its depth, and all labels of a stage have that depth. -/
def CalmTo (S : Setting) (env : Env) (σ : Stage) (m : Lower α) (τ : α → Stage) : Prop :=
  ∀ Γ n, S.Aligned env Γ.boundaries → (∀ l, σ.Knows l → Γ.depths.label l = some n) →
    Spec S (Held S Γ n) (m env) fun x a => ∃ δ, Γ.depths.Le δ ∧
      (∀ l, (τ x).Knows l → δ.label l = some n) ∧ Held S { Γ with depths := δ } n a

theorem CalmTo.bind {m : Lower α} {f : α → Lower β} {τ : α → Stage} {υ : β → Stage}
    (first : CalmTo S env σ m τ) (next : ∀ x, CalmTo S env (τ x) (f x) υ) :
    CalmTo S env σ (m >>= f) υ := by
  intro Γ n aligned known
  refine (first Γ n aligned known).follow fun x => .of_eq fun a ⟨δ, le, known, held⟩ => ?_
  refine (next x { Γ with depths := δ } n aligned known).weaken (by rintro _ rfl; exact held) ?_
  exact fun y b ⟨ε, le', known, held⟩ => ⟨ε, le.trans le', known, held⟩

theorem Calm.to {m : Lower α} {τ : α → Stage} (h : Calm S env [] m)
    (knows : ∀ x l, (τ x).Knows l → σ.Knows l) : CalmTo S env σ m τ :=
  fun Γ n aligned known => (h Γ n aligned nofun).weaken (fun _ held => held) fun x _ held =>
    ⟨Γ.depths, .refl _, fun l known' => known l (knows x l known'), held⟩

theorem Calm.stay {m : Lower α} (h : Calm S env [] m) : CalmTo S env σ m fun _ => σ :=
  h.to fun _ _ known => known

theorem Plain.stay {m : Asm α} (h : Plain S [] m) : CalmTo S env σ (liftM m : Lower α) fun _ => σ :=
  h.calm.stay

theorem Yields.to {P : α → Prop} {m : Lower α} {f : α → Lower β} {υ : β → Stage}
    (first : Yields S env [] P m) (next : ∀ x, P x → CalmTo S env σ (f x) υ) :
    CalmTo S env σ (m >>= f) υ := by
  intro Γ n aligned known
  refine (first Γ n aligned nofun).follow fun x => .given fun holds => ?_
  exact next x holds Γ n aligned known

theorem CalmTo.calm {m : Lower α} {τ : α → Stage} (h : CalmTo S env {} m τ) : Calm S env [] m :=
  fun Γ n aligned _ => (h Γ n aligned fun _ known => nomatch known).weaken (fun _ held => held)
    fun _ _ ⟨_, le, _, held⟩ => held.forget le (List.Subset.refl _) rfl

theorem CalmTo.ite {p : Prop} [Decidable p] {m m' : Lower α} {τ : α → Stage} (h : CalmTo S env σ m τ)
    (h' : CalmTo S env σ m' τ) : CalmTo S env σ (if p then m else m') τ := by
  split
  · exact h
  · exact h'

theorem calmTo_freshLabel : CalmTo S env σ (liftM freshLabel) σ.expect := by
  intro Γ n _ known
  show Spec S (Held S Γ n) freshLabel _
  rw [← bind_pure freshLabel]
  refine spec_fresh n fun l unknown => .pure fun a held => ?_
  have wider := Depths.le_setLabel unknown n
  refine ⟨_, wider, fun l' expected => ?_, held⟩
  rcases expected with mem | mem
  · rcases List.mem_cons.mp mem with rfl | mem
    · exact Depths.setLabel_label_self _ _ _
    · exact wider.label l' n (known l' (.inl mem))
  · exact wider.label l' n (known l' (.inr mem))

theorem calmTo_jump {i : Instruction} (knows : σ.Knows l)
    (target : i.target? = some l) : CalmTo S env σ (liftM (emit i)) fun _ => σ := by
  intro Γ n _ known
  have plain : Plain S [l] (emit i) := by
    cases i <;> cases target
    · exact plain_branch (.head _)
    · exact plain_jeqz (.head _)
    · exact plain_jnez (.head _)
  refine (plain Γ n (by simpa using known l knows)).weaken (fun _ held => held) ?_
  exact fun _ _ held => ⟨Γ.depths, .refl _, known, held⟩

theorem calmTo_mark (index : Nat) (h : σ.labels[index]? = some l) :
    CalmTo S env σ (liftM (label l)) fun _ => σ.mark index l := by
  have own : l ∈ σ.labels := List.mem_of_getElem? h
  intro Γ n _ known
  have plain : Plain S [l] (label l) := plain_label (.head _)
  refine (plain Γ n (by simpa using known l (.inl own))).weaken (fun _ held => held) ?_
  refine fun _ _ held => ⟨Γ.depths, .refl _, fun l' knows => known l' ?_, held⟩
  rcases knows with mem | mem
  · exact .inl (List.mem_of_mem_eraseIdx mem)
  · rcases List.mem_cons.mp mem with rfl | mem
    · exact .inl own
    · exact .inr mem

/-- Code is calm. -/
@[reducible] def calming (S : Setting) : Judgement where
  ledger := S.toLedger
  Leads env σ m _ τ := CalmTo S env σ m τ
  ret x Γ n _ known := Spec.pure fun _ held => ⟨Γ.depths, .refl _, known, held⟩
  chain := CalmTo.bind
  fail excused _ _ _ _ _ := Spec.throw (Setting.tolerates_of_tolerable excused.tolerable)
  inspect h Γ n aligned known := ⟨fun a held => (h a Γ n aligned known).outcome a held⟩
  consult h := h [] (pure ())
  anchor h Γ n aligned := h (fun _ => aligned.anchors.survey) Γ n aligned
  fresh := calmTo_freshLabel
  skip Γ n aligned known := (calmTo_freshLabel Γ n aligned known).weaken (fun _ held => held)
    fun _ _ ⟨δ, le, known, held⟩ => ⟨δ, le, fun l' knows =>
      known l' (knows.imp (List.mem_cons_of_mem _) id), held⟩
  mark index h := calmTo_mark index h
  forget l h Γ n aligned known := (h Γ n aligned known).weaken (fun _ held => held)
    fun _ _ ⟨δ, le, known, held⟩ => ⟨δ, le, fun l' knows =>
      known l' (knows.imp id (List.mem_cons_of_mem _)), held⟩
  use _ _ plain := (plain_emit plain).stay
  jump knows target := calmTo_jump knows target
  take := plain_getTemp.calm.to fun _ _ known => known
  give _ := (plain_freeTemps _).calm.to fun _ _ known => known
  named s := fun _ fits => fun h => .bind ((plain_intern s).stay) fun id => h.bind fun _ =>
    (plain_emit (fits id).2).stay
  literal buffer := fun fits => .bind ((plain_addLiteral buffer).stay) fun k =>
    (plain_emit (fits k).2).stay
  position p := (plain_atPosition p).stay
  Finds env m := Yields S env [] (fun place => S.surveyed → S.Sees env.scope place) m
  Holds env place := S.surveyed → S.Sees env.scope place
  find finds h := finds.to h
  finds sees := yields_resolveName fun known _ => sees known
  Ready _ := True
  modules h := h fun _ _ _ _ => trivial
  settle _ := (plain_markInitialized _).stay
  loadSlot sees := (calm_loadSlotOf sees).stay
  storeSlot sees := (calm_storeSlotOf sees).stay
  loadOwn v _ _ h := .bind (calm_mayBeUninitialized v).stay fun _ => .ite h
    ((plain_registerFor v).bind plain_lda).stay
  storeOwn v := ((plain_registerFor v).bind plain_sta).stay
  initOwn v := ((plain_registerFor v).bind fun r => (plain_sta r).then (plain_markInitialized v)).stay
  fields {env σ m m' τ} h := by
    have runs : Calm S env [] (liftM env.fieldInit) :=
      fun Γ n aligned _ => aligned.anchors.fieldInit Γ n aligned.grounded
    show CalmTo S env σ (if env.callsOwnConstructor then liftM env.fieldInit >>= fun _ => m else m) τ
    split
    · exact .bind (runs.stay) fun _ => h
    · exact h
  Hosts := S.Hosts
  hosts := .of_surveyed
  function h := (calm_defineFunction h).stay
  method isStrict h := (calm_defineMethod (.of_surveyed h) isStrict).stay
  classDef surveyed := fun bases bound inside => (calm_defineClass surveyed (bases {}).calm
    (fun place placed object => CalmTo.calm (τ := fun _ => {}) fun Γ n aligned known =>
      inside place placed object (Stage.hold {} [object]) (.head _) Γ n aligned known)
    fun name mem => (bound name mem {}).calm).stay

/-! ## Trees -/

theorem Calm.of_steady {ls : List Label} {m m' : Lower α} (h : (calming S).Steady env m m') :
    Calm S env ls m :=
  (CalmTo.calm (h {})).mono (List.nil_subset ls)

theorem Calm.of_tests {test test' : Label → Lower Unit} (h : (calming S).Tests env test test') :
    Calm S env [l] (test l) := by
  intro Γ n aligned known
  refine (h l (Stage.know {} l) (.inr (.head _)) Γ n aligned ?_).weaken (fun _ held => held) ?_
  · rintro l (mem | mem)
    · cases mem
    · exact known l mem
  · exact fun _ _ ⟨_, le, _, held⟩ => held.forget le (List.Subset.refl _) rfl

theorem Calm.of_uses {code code' : Register → Lower Unit} (h : (calming S).Uses env code code')
    (r : Register) : Calm S env [] (code r) :=
  CalmTo.calm fun Γ n aligned known => h r (Stage.hold {} [r]) (.head _) Γ n aligned known

theorem calm_loadVariable {ls : List Label} {name : String}
    (reached : S.surveyed → S.Reaches env.scope name) : Calm S env ls (loadVariable name) :=
  .of_steady (Judgement.steady_load reached)

theorem Expr.lower_calm (e : Expr) (h : e.Surveyed S.toLedger env.scope) : Calm S env [] e.lower :=
  .of_steady (e.steady_lower h)

theorem Expr.lower?_calm (e : Option Expr) (h : Expr.SurveyedOption S.toLedger env.scope e) :
    ∀ code ∈ Expr.lower? e, Calm S env [] code := by
  intro code mem
  cases e with
  | none => cases mem
  | some e =>
    cases mem
    exact e.lower_calm h

theorem ClassNode.lower_calm (node : ClassNode) (binding : Option String)
    (h : node.Surveyed S.toLedger env.scope)
    (bound : S.surveyed → S.discipline = .lawful → ∀ name ∈ binding, S.Reaches env.scope name) :
    Calm S env [] (node.lower binding) :=
  .of_steady <| node.steady_lower binding h fun name mem => Judgement.steady_storeVariable true <|
    yields_resolveName fun known lawful => bound known lawful name mem

theorem portable_initializeFields
    (anchors : S.Anchors { env with scope := env.functionScope, inFields := true })
    (this : S.surveyed → S.Reaches env.functionScope HiddenName.this) {classScope : ScopeId}
    {members : List ClassMember}
    (h : ∀ member ∈ members, member.IsSurveyed S.toLedger classScope env.functionScope) :
    S.Portable (initializeFields (ClassMember.lowerEach members) env) := by
  have all := Judgement.instanceFields_bare <| @ClassMember.fields_lowerEach (calming S)
    { env with scope := env.functionScope, inFields := true } members fun member mem => by
      obtain ⟨-, binding, key, kind⟩ := h member mem
      refine ⟨fun known name found => ?_, fun dynamic field none => ?_, fun dynamic _ content => ?_⟩
      · exact (binding known name (anchors.survey ▸ found)).2
      · exact key dynamic field (anchors.survey ▸ none)
      · rw [dynamic, content] at kind
        exact kind
  unfold initializeFields
  split
  · exact fun _ _ _ => .pure fun _ held => held
  · have code := @Judgement.steady_fieldCode (calming S)
      { env with scope := env.functionScope, inFields := true } this _ _ all {}
    exact Calm.inFields anchors (CalmTo.calm code)

end AccScript
