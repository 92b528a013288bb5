import AccScript.Proofs.Lowering.Loop

/-!
# Statements

The code of every statement keeps frame and depth, by induction on the tree.
-/

namespace AccScript

open Asm Lower

variable {S : Setting} {ctx : JumpContext} {env : Env} {names : List String}

theorem calm_getD {code : Option (Lower Unit)} (h : ∀ m ∈ code, Calm S env [] m) :
    Calm S env [] (code.getD (pure ())) := by
  cases code with
  | none => exact .pure ()
  | some m => exact h m rfl

/-! ## Labels and cases -/

theorem Ready.label {Γ : Frame} (h : Ready S ctx names Γ env) (name : String) :
    Ready S (ctx.label name) (names ++ [name]) Γ env := by
  refine ⟨?_, h.continues, h.regions, h.finalizers, h.this⟩
  refine h.breaks.mono (List.suffix_refl _) (.refl _) ?_
  rintro target ⟨may, other⟩
  refine ⟨?_, fun x mem => other x (List.mem_append_left _ mem)⟩
  rcases may with anything | inside
  · exact .inl anything
  · cases target with
    | none => exact .inr inside
    | some target =>
      rcases List.mem_cons.mp inside with rfl | inside
      · exact absurd rfl (other target (by simp))
      · exact .inr inside

theorem Steady.label {name : String} {ls : List Label} {m : Lower Unit}
    (h : Steady S (ctx.label name) (names ++ [name]) env ls m) : Steady S ctx names env ls m :=
  fun Γ ready => h Γ (ready.label name)

theorem StatementKind.Obeys.of_not_takesLabels {rules : JumpRules} {kind : StatementKind}
    (takes : kind.takesLabels = false) (h : kind.Obeys rules ctx names) :
    kind.Obeys rules ctx [] := by
  cases kind <;> first | exact h | cases takes

theorem SwitchCase.SurveyedList.of_mem
    {L : Ledger} {s : ScopeId} {cases : List SwitchCase} (h : SwitchCase.SurveyedList L s cases) :
    ∀ statement ∈ cases.flatMap SwitchCase.body, statement.Surveyed L s := by
  induction cases with
  | nil => nofun
  | cons first rest ih =>
    obtain ⟨test, body⟩ := first
    obtain ⟨-, bodies, others⟩ := h
    intro statement mem
    rcases List.mem_append.mp mem with mem | mem
    · exact bodies.of_mem statement mem
    · exact ih others statement mem

/-! ## The induction -/

mutual

theorem Statement.lower_steady {ctx} {env : Env} : (s : Statement) →
    s.Surveyed S.toLedger env.scope →
    (S.discipline ≠ .unknown → s.Obeys S.discipline.rules ctx []) →
    Steady S ctx [] env [] s.lower
  | ⟨id, position, kind⟩, h, obeys =>
      .visiting <| (plain_atPosition position).steady fun _ =>
        StatementKind.lower_steady id position [] kind (fun _ => rfl) h obeys

theorem StatementKind.lower_steady {ctx} {env : Env} (id : NodeId)
    (position : Position) (names : List String) : (kind : StatementKind) →
    (kind.takesLabels = false → names = []) → kind.Surveyed S.toLedger env.scope id →
    (S.discipline ≠ .unknown → kind.Obeys S.discipline.rules ctx names) →
    Steady S ctx names env [] (kind.lower id position names)
  | .empty, _, _, _ => .pure ()
  | .debugger, _, _, _ => .of_calm (plain_emit rfl).calm
  | .block block, fits, h, obeys => by
      obtain rfl := fits rfl
      exact Block.lower_steady block h obeys
  | .variableDecl declaration _, _, h, _ => .of_calm (.of_steady (declaration.steady_lower h))
  | .expression value, _, h, _ => .of_calm (Expr.lower_calm value h)
  | .ifElse test consequent alternate, fits, h, obeys => by
      obtain rfl := fits rfl
      refine steady_ifElse h (fun inner ok => ?_) (fun inner ok l => ?_)
        (fun inner ok => ?_) fun inner ok => ?_
      · refine List.forall_mem_cons.mpr ⟨ok.2.1, fun statement mem => ?_⟩
        cases alternate with
        | none => cases mem
        | some alternate =>
          obtain rfl := List.mem_singleton.mp mem
          exact ok.2.2
      · exact .of_tests (test.tests_lowerCondition ok.1)
      · exact Statement.lower_steady consequent ok.2.1 fun known => (obeys known).1
      · exact Statement.lower?_steady alternate ok.2.2 fun known => (obeys known).2
  | .while test body, _, h, obeys =>
      steady_whileLoop h (fun _ ok _ => Statement.lower_steady body ok.2 obeys)
        fun _ ok _ => .of_tests (test.tests_lowerCondition ok.1)
  | .doWhile body test, _, h, obeys =>
      steady_doWhileLoop h (fun _ ok _ => Statement.lower_steady body ok.2 obeys)
        fun _ ok => Expr.lower_calm test ok.1
  | .for init test update body, _, h, obeys => by
      refine steady_forLoop h (fun loop ok _ => Statement.lower_steady body ok.2.2.2 obeys)
        (fun loop ok => ?_) (fun loop ok _ => .of_tests (Expr.tests_lowerTest ok.2.1))
        fun loop ok => calm_getD (Expr.lower?_calm update ok.2.2.1)
      cases init with
      | none => exact .pure ()
      | some head => exact .of_steady (head.steady_lower ok.1)
  | .forIn target source body, _, h, obeys =>
      steady_collectionLoop h.2 (Expr.lower_calm source h.1)
        fun _ ok opens => steady_forInLoop opens
          (fun _ => .of_uses (target.uses_lowerIteration ok.1))
          fun _ => Statement.lower_steady body ok.2 obeys
  | .forOf target source body, _, h, obeys =>
      steady_collectionLoop h.2 (Expr.lower_calm source h.1)
        fun _ ok opens => steady_forOfLoop opens
          (fun _ _ => .of_uses (target.uses_lowerIteration ok.1))
          fun _ _ => Statement.lower_steady body ok.2 obeys
  | .continue name, _, _, obeys => steady_continueStatement name position obeys
  | .break name, fits, _, obeys => by
      obtain rfl := fits rfl
      exact steady_breakStatement name position obeys
  | .return value, _, h, _ => steady_returnStatement value (Expr.lower?_calm value h)
  | .labelled name body, _, h, obeys =>
      .inScope h fun _ ok => .label (Statement.lowerLabelled_steady body (names ++ [name]) ok obeys)
  | .throw value, _, h, _ => steady_throwStatement (Expr.lower_calm value h)
  | .tryCatch block handler finalizer, fits, h, obeys => by
      obtain rfl := fits rfl
      refine steady_tryStatement (fun _ _ => ?_) (fun _ _ => ?_) fun _ => ?_
      · exact Block.lower_steady block h.1 fun known => (obeys known).1
      · exact CatchClause.lower?_steady handler h.2.1 fun known => (obeys known).2.1
      · exact Block.lower?_steady finalizer h.2.2 fun known => (obeys known).2.2
  | .switch discriminant cases, _, h, obeys =>
      steady_switchOn (Expr.lower_calm discriminant h.1) h.2 (fun _ ok => ok.of_mem)
        fun _ ok => SwitchCase.lowerEach_steady cases ok obeys
  | .functionDecl _ _, _, _, _ => .pure ()
  | .classDecl node exportKind, _, h, obeys => by
      refine .of_calm (ClassNode.lower_calm node _ h.1 ?_)
      intro known lawful
      have plain := obeys (by simp [lawful])
      rw [lawful] at plain
      exact h.2 known plain
  | .importDecl _, _, _, _ => .pure ()
  | .exportDecl _, _, _, _ => .pure ()
  | .exportDefault value, _, h, _ =>
      .of_calm ((Expr.lower_calm value h.1).then (.of_steady (Judgement.steady_store true h.2)))

theorem Statement.lowerLabelled_steady {ctx} {env : Env} : (s : Statement) →
    (names : List String) → s.Surveyed S.toLedger env.scope →
    (S.discipline ≠ .unknown → s.Obeys S.discipline.rules ctx names) →
    Steady S ctx names env [] (s.lowerLabelled names)
  | ⟨id, position, kind⟩, names, h, obeys => by
      refine .visiting <| (Calm.of_steady (Judgement.steady_instantiateFunction h)).steady fun _ =>
        (plain_atPosition position).steady fun _ => .ite (fun takes => ?_) fun takes => ?_
      · exact StatementKind.lower_steady id position names kind (by simp [takes]) h obeys
      · have leaves := Bool.eq_false_iff.mpr takes
        exact steady_labelledBlock fun _ => StatementKind.lower_steady id position [] kind
          (fun _ => rfl) h fun known => (obeys known).of_not_takesLabels leaves

theorem Statement.lower?_steady {ctx} {env : Env} : (s : Option Statement) →
    Statement.SurveyedOption S.toLedger env.scope s →
    (S.discipline ≠ .unknown → Statement.ObeysOption S.discipline.rules ctx s) →
    ∀ code ∈ Statement.lower? s, Steady S ctx [] env [] code
  | none, _, _ => nofun
  | some s, h, obeys => by
      rintro _ ⟨⟩
      exact Statement.lower_steady s h obeys

theorem Statement.lowerEach_steady {ctx} {env : Env} :
    (statements : List Statement) → Statement.SurveyedList S.toLedger env.scope statements →
    (S.discipline ≠ .unknown → Statement.ObeysList S.discipline.rules ctx statements) →
    Steady S ctx [] env [] (Statement.lowerEach statements)
  | [], _, _ => .pure ()
  | s :: rest, h, obeys =>
      (Statement.lower_steady s h.1 fun known => (obeys known).1).then <|
        Statement.lowerEach_steady rest h.2 fun known => (obeys known).2

theorem Block.lower_steady {ctx} {env : Env} : (block : Block) →
    block.Surveyed S.toLedger env.scope →
    (S.discipline ≠ .unknown → block.Obeys S.discipline.rules ctx) →
    Steady S ctx [] env [] block.lower
  | ⟨_, statements⟩, h, obeys =>
      steady_blockOf h (fun _ ok => ok.of_mem) fun _ ok =>
        Statement.lowerEach_steady statements ok obeys

theorem Block.lower?_steady {ctx} {env : Env} : (block : Option Block) →
    Block.SurveyedOption S.toLedger env.scope block →
    (S.discipline ≠ .unknown → Block.ObeysOption S.discipline.rules ctx block) →
    ∀ code ∈ Block.lower? block, Steady S ctx [] env [] code
  | none, _, _ => nofun
  | some block, h, obeys => by
      rintro _ ⟨⟩
      exact Block.lower_steady block h obeys

theorem CatchClause.lower_steady {ctx} {env : Env} : (clause : CatchClause) →
    clause.Surveyed S.toLedger env.scope →
    (S.discipline ≠ .unknown → clause.Obeys S.discipline.rules ctx) →
    Steady S ctx [] env [] clause.lower
  | ⟨id, position, parameter, body⟩, h, obeys => by
      refine steady_catchHandler h (fun inner ok => calm_getD ?_) fun inner ok =>
        Block.lower_steady body ok.2.2 obeys
      intro code mem
      cases parameter with
      | none => cases mem
      | some parameter =>
        cases mem
        exact .of_steady (parameter.steady_lower .declare ok.2.1 ok.1)

theorem CatchClause.lower?_steady {ctx} {env : Env} :
    (clause : Option CatchClause) → CatchClause.SurveyedOption S.toLedger env.scope clause →
    (S.discipline ≠ .unknown → CatchClause.ObeysOption S.discipline.rules ctx clause) →
    ∀ code ∈ CatchClause.lower? clause, Steady S ctx [] env [] code
  | none, _, _ => nofun
  | some clause, h, obeys => by
      rintro _ ⟨⟩
      exact CatchClause.lower_steady clause h obeys

theorem SwitchCase.lowerEach_steady {ctx} {env : Env} :
    (cases : List SwitchCase) → SwitchCase.SurveyedList S.toLedger env.scope cases →
    (S.discipline ≠ .unknown → SwitchCase.ObeysList S.discipline.rules ctx cases) →
    ∀ part ∈ SwitchCase.lowerEach cases, part.IsSteady S ctx env
  | [], _, _ => nofun
  | ⟨test, body⟩ :: rest, h, obeys => by
      refine List.forall_mem_cons.mpr ⟨⟨?_, ?_⟩, ?_⟩
      · exact Expr.lower?_calm test h.1
      · exact fun _ => Statement.lowerEach_steady body h.2.1 fun known => (obeys known).1
      · exact SwitchCase.lowerEach_steady rest h.2.2 fun known => (obeys known).2

end

end AccScript
