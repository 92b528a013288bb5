import AccScript.Proofs.Metadata.Control

/-!
# The echo of statements

The code of every declaration and statement echoes that of its bare form, by induction on the tree.
-/

namespace AccScript

open Asm Lower

variable {E : VariableId → Prop}

theorem StatementKind.takesLabels_bare (kind : StatementKind) : kind.bare.takesLabels = kind.takesLabels := by
  cases kind <;> rfl

theorem SwitchCase.flatMap_body_bare (cases : List SwitchCase) :
    (SwitchCase.bareList cases).flatMap SwitchCase.body = (cases.flatMap SwitchCase.body).map .bare := by
  induction cases with
  | nil => rfl
  | cons c rest ih =>
    obtain ⟨test, body⟩ := c
    show Statement.bareList body ++ (SwitchCase.bareList rest).flatMap SwitchCase.body =
      (body ++ rest.flatMap SwitchCase.body).map .bare
    rw [ih, Statement.bareList_eq, List.map_append]

mutual

theorem Statement.resounds_lower : (s : Statement) → Resounds E s.lower s.bare.lower
  | ⟨id, position, kind⟩ => .visiting fun Γ => (echo_atPosition position).before <|
      StatementKind.resounds_lower kind id position [] Γ

theorem StatementKind.resounds_lower : (kind : StatementKind) → (id : NodeId) →
    (position : Position) → (names : List String) →
    Resounds E (kind.lower id position names) (kind.bare.lower id .bare names)
  | .empty, _, _, _ => fun _ => .done
  | .debugger, _, _, _ => fun _ => (echo_plain rfl).lift
  | .block block, _, _, _ => Block.resounds_lower block
  | .variableDecl declaration _, _, _, _ => declaration.resounds_lower
  | .expression value, _, _, _ => value.resounds_lower
  | .ifElse test consequent alternate, id, _, _ =>
      resounds_ifElse id (by cases alternate <;> rfl) test.resounds_lowerCondition
        (Statement.resounds_lower consequent) (Statement.resounds_lower? alternate)
  | .while test body, id, _, names =>
      resounds_whileLoop id names test.resounds_lowerCondition (Statement.resounds_lower body)
  | .doWhile body test, id, _, names =>
      resounds_doWhileLoop id names (Statement.resounds_lower body) test.resounds_lower
  | .for init test update body, id, _, names =>
      resounds_forLoop id names (Expr.resounds_lowerTest test) (Statement.resounds_lower body)
        (.getD (ForHead.resounds_lower? init) fun _ => .done)
        (.getD (Expr.resounds_lower? update) fun _ => .done)
  | .forIn target source body, id, _, names =>
      resounds_collectionLoop id source.resounds_lower fun scope =>
        resounds_forInLoop names (Statement.resounds_lower body) scope target.echoes_lowerIteration
  | .forOf target source body, id, _, names =>
      resounds_collectionLoop id source.resounds_lower fun scope =>
        resounds_forOfLoop names (Statement.resounds_lower body) scope target.echoes_lowerIteration
  | .continue name, _, position, _ => resounds_continueStatement name position
  | .break name, _, position, _ => resounds_breakStatement name position
  | .return value, _, _, _ => resounds_returnStatement value (Expr.resounds_lower? value)
  | .labelled name body, id, _, names =>
      .inScopeOf (Statement.resounds_lowerLabelled body (names ++ [name])) id
  | .throw value, _, _, _ => resounds_throwStatement value.resounds_lower
  | .tryCatch block handler finalizer, _, _, _ =>
      resounds_tryStatement (Block.resounds_lower block) (CatchClause.resounds_lower? handler)
        (Block.resounds_lower? finalizer)
  | .switch discriminant cases, id, _, names =>
      resounds_switchOn (SwitchCase.echoes_lowerEach cases) id names discriminant.resounds_lower
        (SwitchCase.flatMap_body_bare cases)
  | .functionDecl _ _, _, _, _ => fun _ => .done
  | .classDecl node exportKind, _, _, _ => by
      have own := node.resounds_lower (E := E) (declaredName? node.name exportKind)
      show Resounds E _ (node.bare.lower (declaredName? node.bare.name exportKind))
      rw [ClassNode.name_bare]
      exact own
  | .importDecl _, _, _, _ => fun _ => .done
  | .exportDecl _, _, _, _ => fun _ => .done
  | .exportDefault value, _, _, _ => fun Γ =>
      value.resounds_lower.then <| resounds_declareVariable _ Γ

theorem Statement.resounds_lowerLabelled : (s : Statement) →
    (names : List String) → Resounds E (s.lowerLabelled names) (s.bare.lowerLabelled names)
  | ⟨id, position, kind⟩, names => .visiting fun Γ => by
      have own := StatementKind.resounds_lower kind id position names
      have block := resounds_labelledBlock names
        (StatementKind.resounds_lower kind id position [])
      have labels := kind.takesLabels_bare
      refine (resounds_instantiateFunction ⟨id, position, kind⟩).then <|
        (echo_atPosition position).before ?_
      rw [labels]
      exact .ite (fun _ => own Γ) fun _ => block Γ

theorem Statement.resounds_lower? : (s : Option Statement) →
    ResoundsOption E (Statement.lower? s) (Statement.lower? (Statement.bare? s))
  | none => .none
  | some s => .some (Statement.resounds_lower s)

theorem Statement.resounds_lowerEach : (statements : List Statement) →
    Resounds E (Statement.lowerEach statements) (Statement.lowerEach (Statement.bareList statements))
  | [] => fun _ => .done
  | s :: rest => fun Γ =>
      (Statement.resounds_lower s).then <| Statement.resounds_lowerEach rest Γ

theorem Block.resounds_lower : (block : Block) → Resounds E block.lower block.bare.lower
  | ⟨id, statements⟩ =>
      resounds_blockOf id (Statement.bareList_eq statements) (Statement.resounds_lowerEach statements)

theorem Block.resounds_lower? : (block : Option Block) →
    ResoundsOption E (Block.lower? block) (Block.lower? (Block.bare? block))
  | none => .none
  | some block => .some (Block.resounds_lower block)

theorem CatchClause.resounds_lower : (clause : CatchClause) →
    Resounds E clause.lower clause.bare.lower
  | ⟨id, position, parameter, body⟩ =>
      resounds_catchHandler id position
        (.getD (BindingTarget.resounds_lower? parameter .declare) fun _ => .done)
        (Block.resounds_lower body)

theorem CatchClause.resounds_lower? : (clause : Option CatchClause) →
    ResoundsOption E (CatchClause.lower? clause) (CatchClause.lower? (CatchClause.bare? clause))
  | none => .none
  | some clause => .some (CatchClause.resounds_lower clause)

theorem SwitchCase.echoes_lower : (c : SwitchCase) → c.lower.Echoes E c.bare.lower
  | ⟨test, body⟩ => ⟨Expr.resounds_lower? test, Statement.resounds_lowerEach body⟩

theorem SwitchCase.echoes_lowerEach : (cases : List SwitchCase) →
    List.Forall₂ (CasePart.Echoes E) (SwitchCase.lowerEach cases)
      (SwitchCase.lowerEach (SwitchCase.bareList cases))
  | [] => .nil
  | c :: rest => .cons (SwitchCase.echoes_lower c) (SwitchCase.echoes_lowerEach rest)

end

end AccScript
