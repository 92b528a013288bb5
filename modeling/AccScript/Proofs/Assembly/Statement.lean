import AccScript.Proofs.Assembly.Loop

/-!
# Statements

The code of every statement gives back all it takes, by induction on the tree.
-/

namespace AccScript

open Asm Lower

theorem Tame.pure : Tame (Pure.pure () : Lower Unit) :=
  fun _ _ => .pure ()

theorem Tame.getD {code : Option (Lower Unit)} (h : ∀ c ∈ code, Tame c) :
    Tame (code.getD (Pure.pure ())) := by
  cases code with
  | none => exact .pure
  | some c => exact h c rfl

/-! ## Statements -/

mutual

theorem Statement.lower_settles : (s : Statement) → Settles s.lower
  | ⟨id, position, kind⟩ => .visiting fun env G σ suits =>
      (neutral_atPosition position).before <|
        StatementKind.lower_settles kind id position [] env G σ suits

theorem StatementKind.lower_settles : (kind : StatementKind) → (id : NodeId) →
    (position : Position) → (names : List String) → Settles (kind.lower id position names)
  | .empty, _, _, _ => Tame.pure.settles
  | .debugger, _, _, _ => Tame.settles fun _ _ => neutral_emit rfl
  | .block block, _, _, _ => Block.lower_settles block
  | .variableDecl declaration _, _, _, _ => declaration.lower_tame.settles
  | .expression value, _, _, _ => value.lower_tame.settles
  | .ifElse test consequent alternate, id, _, _ =>
      settles_ifElse id _ test.lowerCondition_tame (Statement.lower_settles consequent)
        (Statement.lower?_settles alternate)
  | .while test body, id, _, names =>
      settles_whileLoop id names test.lowerCondition_tame (Statement.lower_settles body)
  | .doWhile body test, id, _, names =>
      settles_doWhileLoop id names (Statement.lower_settles body) test.lower_tame
  | .for init test update body, id, _, names =>
      settles_forLoop id names (.getD (ForHead.lower?_tame init)) (Expr.lowerTest_tame test)
        (.getD (Expr.lower?_tame update)) (Statement.lower_settles body)
  | .forIn target source body, id, _, names =>
      settles_collectionLoop id source.lower_tame fun scope =>
        settles_forInLoop scope names target.lowerIteration_tame (Statement.lower_settles body)
  | .forOf target source body, id, _, names =>
      settles_collectionLoop id source.lower_tame fun scope =>
        settles_forOfLoop scope names target.lowerIteration_tame (Statement.lower_settles body)
  | .continue name, _, position, _ => settles_continueStatement name position
  | .break name, _, position, _ => settles_breakStatement name position
  | .return value, _, _, _ => settles_returnStatement value (Expr.lower?_tame value)
  | .labelled name body, id, _, names =>
      .inScopeOf (Statement.lowerLabelled_settles body (names ++ [name])) id
  | .throw value, _, _, _ =>
      Tame.settles fun env fields => neutral_throwStatement (value.lower_tame env fields)
  | .tryCatch block handler finalizer, _, _, _ =>
      settles_tryStatement (Block.lower_settles block) (CatchClause.lower?_settles handler)
        (Block.lower?_settles finalizer)
  | .switch discriminant cases, id, _, names =>
      settles_switchOn id names discriminant.lower_tame _
        (fun part mem => (SwitchCase.lowerEach_settles cases part mem).1)
        fun part mem => (SwitchCase.lowerEach_settles cases part mem).2
  | .functionDecl _ _, _, _, _ => Tame.pure.settles
  | .classDecl node _, _, _, _ => (node.lower_tame _).settles
  | .importDecl _, _, _, _ => Tame.pure.settles
  | .exportDecl _, _, _, _ => Tame.pure.settles
  | .exportDefault value, _, _, _ => Tame.settles fun env fields G σ =>
      (value.lower_neutral fields).then <| tame_declareVariable _ env fields G σ

theorem Statement.lowerLabelled_settles : (s : Statement) → (names : List String) →
    Settles (s.lowerLabelled names)
  | ⟨id, position, kind⟩, names => .visiting fun env G σ suits => by
      refine (tame_instantiateFunction _ env suits.fields).then <|
        (neutral_atPosition position).before <| .choose (fun _ => ?_) fun _ => ?_
      · exact StatementKind.lower_settles kind id position names env G σ suits
      · exact settles_labelledBlock names (StatementKind.lower_settles kind id position []) env G σ
          suits

theorem Statement.lower?_settles : (s : Option Statement) →
    ∀ code ∈ Statement.lower? s, Settles code
  | none => by simp [Statement.lower?]
  | some s => by
      have inside := Statement.lower_settles s
      rintro code ⟨⟩
      exact inside

theorem Statement.lowerEach_settles : (statements : List Statement) →
    Settles (Statement.lowerEach statements)
  | [] => Tame.pure.settles
  | s :: rest => .bind (Statement.lower_settles s) (Statement.lowerEach_settles rest)

theorem Block.lower_settles : (block : Block) → Settles block.lower
  | ⟨id, statements⟩ => settles_blockOf id statements (Statement.lowerEach_settles statements)

theorem Block.lower?_settles : (block : Option Block) → ∀ code ∈ Block.lower? block, Settles code
  | none => by simp [Block.lower?]
  | some block => by
      have inside := Block.lower_settles block
      rintro code ⟨⟩
      exact inside

theorem CatchClause.lower_settles : (clause : CatchClause) → Settles clause.lower
  | ⟨id, position, parameter, body⟩ =>
      settles_catchHandler id position
        (.getD (BindingTarget.lower?_tame parameter .declare))
        (Block.lower_settles body)

theorem CatchClause.lower?_settles : (clause : Option CatchClause) →
    ∀ code ∈ CatchClause.lower? clause, Settles code
  | none => by simp [CatchClause.lower?]
  | some clause => by
      have inside := CatchClause.lower_settles clause
      rintro code ⟨⟩
      exact inside

theorem SwitchCase.lower_settles : (c : SwitchCase) →
    (∀ test ∈ c.lower.test, Tame test) ∧ Settles c.lower.body
  | ⟨test, body⟩ => ⟨Expr.lower?_tame test, Statement.lowerEach_settles body⟩

theorem SwitchCase.lowerEach_settles : (cases : List SwitchCase) →
    ∀ part ∈ SwitchCase.lowerEach cases, (∀ test ∈ part.test, Tame test) ∧ Settles part.body
  | [] => by simp [SwitchCase.lowerEach]
  | c :: rest => by
      have first := SwitchCase.lower_settles c
      have others := SwitchCase.lowerEach_settles rest
      exact List.forall_mem_cons.mpr ⟨first, others⟩

end

end AccScript
