import AccScript.Proofs.Survey.Surveyed

/-!
# Ledgers without a survey

A ledger that knows nothing about the survey asks of a program only what it asks of its functions.
This is enough for properties that do not depend on how names are resolved.
-/

namespace AccScript

@[simp] theorem Ledger.AdmitsAll_append {L : Ledger} {first second : List SourceNode} :
    L.AdmitsAll (first ++ second) ↔ L.AdmitsAll first ∧ L.AdmitsAll second := by
  simp only [Ledger.AdmitsAll, List.mem_append, or_imp, forall_and]

@[simp] theorem Ledger.AdmitsAll_cons {L : Ledger} {node : SourceNode} {rest : List SourceNode} :
    L.AdmitsAll (node :: rest) ↔
      (∀ f, node.function = some f → L.admits f) ∧ L.AdmitsAll rest := by
  simp only [Ledger.AdmitsAll, List.mem_cons, or_imp, forall_and, forall_eq]

theorem Ledger.finds_iff {α : Type} {L : Ledger} (unknown : ¬L.surveyed)
    {place inOrder : α → Prop} : L.Finds place inOrder ↔ ∀ x, inOrder x := by
  simp only [Ledger.Finds, unknown, false_implies, true_and, true_implies]

theorem Statement.unsurveyedList {L : Ledger} (unknown : ¬L.surveyed) (s : ScopeId)
    (statements : List Statement) (h : L.AdmitsAll (Statement.nodesOfList statements)) :
    Statement.SurveyedList L s statements := by
  revert h
  apply Statement.SurveyedList.induct
    (fun s e => L.AdmitsAll e.nodes → e.Surveyed L s)
    (fun s kind => L.AdmitsAll kind.nodes → kind.Surveyed L s)
    (fun s target => L.AdmitsAll target.nodes → target.Surveyed L s)
    (fun s pattern => L.AdmitsAll pattern.nodes → pattern.Surveyed L s)
    (fun s l => L.AdmitsAll (PatternElement.nodesOfList l) → PatternElement.SurveyedList L s l)
    (fun s e => L.AdmitsAll (Expr.nodesOfOption e) → Expr.SurveyedOption L s e)
    (fun s o => L.AdmitsAll (BindingTarget.nodesOfOption o) → BindingTarget.SurveyedOption L s o)
    (fun s target => L.AdmitsAll target.nodes → target.Surveyed L s)
    (fun s o => L.AdmitsAll (PropertyKey.nodesOfOption o) → PropertyKey.SurveyedOption L s o)
    (fun s key => L.AdmitsAll key.nodes → key.Surveyed L s)
    (fun s node => L.AdmitsAll node.nodes → node.Surveyed L s)
    (fun s r l => L.AdmitsAll (ClassMember.nodesOfList l) → ClassMember.SurveyedList L s r l)
    (fun s r kind => L.AdmitsAll kind.nodes → kind.Surveyed L s r)
    (fun s f => L.AdmitsAll f.nodes → f.Surveyed L s)
    (fun s body => L.AdmitsAll body.nodes → body.Surveyed L s)
    (fun s block => L.AdmitsAll block.nodes → block.Surveyed L s)
    (fun s l => L.AdmitsAll (Statement.nodesOfList l) → Statement.SurveyedList L s l)
    (fun s statement => L.AdmitsAll statement.nodes → statement.Surveyed L s)
    (fun s id kind => L.AdmitsAll kind.nodes → kind.Surveyed L s id)
    (fun s l => L.AdmitsAll (SwitchCase.nodesOfList l) → SwitchCase.SurveyedList L s l)
    (fun s o => L.AdmitsAll (Block.nodesOfOption o) → Block.SurveyedOption L s o)
    (fun s o => L.AdmitsAll (CatchClause.nodesOfOption o) → CatchClause.SurveyedOption L s o)
    (fun s clause => L.AdmitsAll clause.nodes → clause.Surveyed L s)
    (fun s head => L.AdmitsAll head.nodes → head.Surveyed L s)
    (fun s declaration => L.AdmitsAll declaration.nodes → declaration.Surveyed L s)
    (fun s l => L.AdmitsAll (Declarator.nodesOfList l) → Declarator.SurveyedList L s l)
    (fun s o => L.AdmitsAll (ForHead.nodesOfOption o) → ForHead.SurveyedOption L s o)
    (fun s o => L.AdmitsAll (Statement.nodesOfOption o) → Statement.SurveyedOption L s o)
    (fun s l => L.AdmitsAll (Parameter.nodesOfList l) → Parameter.SurveyedList L s l)
    (fun s node l => L.AdmitsAll (ClassMember.nodesOfList l) → ConstructorSurveyed L s node l)
    (fun s l => L.AdmitsAll (Property.nodesOfList l) → Property.SurveyedList L s l)
    (fun s property => L.AdmitsAll property.nodes → property.Surveyed L s)
    (fun s l => L.AdmitsAll (Expr.nodesOfElements l) → Expr.SurveyedElements L s l)
    (fun s l => L.AdmitsAll (Expr.nodesOfList l) → Expr.SurveyedList L s l)
  all_goals
    intros
    simp_all only [Expr.nodes, ExprKind.nodes, Expr.nodesOfList, Expr.nodesOfElements,
      Expr.nodesOfOption, AssignmentTarget.nodes, BindingTarget.nodes,
      BindingTarget.nodesOfOption, Pattern.nodes, PatternElement.nodesOfList, PropertyKey.nodes,
      PropertyKey.nodesOfOption, Property.nodesOfList, Property.nodes, FunctionNode.nodes,
      Parameter.nodesOfList, FunctionBody.nodes, Block.nodes, Block.nodesOfOption, ClassNode.nodes,
      ClassMember.nodesOfList, MemberKind.nodes, Declaration.nodes, Declarator.nodesOfList,
      Statement.nodes, Statement.nodesOfList, Statement.nodesOfOption, StatementKind.nodes,
      ForHead.nodes, ForHead.nodesOfOption, CatchClause.nodes, CatchClause.nodesOfOption,
      SwitchCase.nodesOfList, Expr.Surveyed, ExprKind.Surveyed, Expr.SurveyedList,
      Expr.SurveyedElements, Expr.SurveyedOption, AssignmentTarget.Surveyed,
      BindingTarget.Surveyed, BindingTarget.SurveyedOption, Pattern.Surveyed,
      PatternElement.SurveyedList, PropertyKey.Surveyed, PropertyKey.SurveyedOption,
      Property.SurveyedList, Property.Surveyed, FunctionNode.Surveyed, Parameter.SurveyedList,
      FunctionBody.Surveyed, Block.Surveyed, Block.SurveyedOption, ClassNode.Surveyed,
      ConstructorSurveyed, ClassMember.SurveyedList, MemberKind.Surveyed, Declaration.Surveyed,
      Declarator.SurveyedList, Statement.Surveyed, Statement.SurveyedList,
      Statement.SurveyedOption, StatementKind.Surveyed, ForHead.Surveyed, ForHead.SurveyedOption,
      CatchClause.Surveyed, CatchClause.SurveyedOption, SwitchCase.SurveyedList,
      Ledger.AdmitsAll_append, Ledger.AdmitsAll_cons, Ledger.finds_iff unknown, forall_const,
      implies_true, and_self, false_implies, true_and, ne_eq, if_true, if_false,
      Option.some.injEq, forall_eq', reduceCtorEq]

/-- The ledger that knows nothing and admits everything. -/
def Ledger.blank : Ledger where
  program := ⟨0, ⟨0, 0⟩, [], false, 0, []⟩
  options := {}
  survey := { tree := {}, moduleRecord := none, nextNodeId := 0 }
  names := []
  surveyed := False
  admits _ := True

section Blank

variable (s : ScopeId)

theorem Statement.surveyed_blank (statement : Statement) : statement.Surveyed .blank s :=
  (Statement.unsurveyedList (L := .blank) (fun known => known) s [statement] fun _ _ _ _ => trivial).1

theorem Expr.surveyed_blank (e : Expr) : e.Surveyed .blank s :=
  Statement.surveyed_blank s ⟨0, e.position, .expression e⟩

theorem Expr.surveyedOption_blank (e : Option Expr) : Expr.SurveyedOption .blank s e := by
  cases e with
  | none => trivial
  | some e => exact e.surveyed_blank s

theorem Pattern.surveyed_blank (p : Pattern) : p.Surveyed .blank s :=
  (Expr.surveyed_blank s ⟨p.position, .assignment none (.pattern p) ⟨p.position, .null⟩⟩).1.1

theorem BindingTarget.surveyed_blank (target : BindingTarget) : target.Surveyed .blank s := by
  cases target with
  | identifier name => trivial
  | pattern p => exact p.surveyed_blank s

theorem ClassNode.surveyed_blank (c : ClassNode) : c.Surveyed .blank s :=
  Expr.surveyed_blank s ⟨c.position, .classExpr c⟩

theorem Declaration.surveyed_blank (d : Declaration) : d.Surveyed .blank s :=
  Statement.surveyed_blank s ⟨0, ⟨0, 0⟩, .variableDecl d false⟩

theorem ForHead.surveyed_blank (head : ForHead) : head.Surveyed .blank s := by
  cases head with
  | declaration d => exact d.surveyed_blank s
  | expression value => exact value.surveyed_blank s

end Blank

end AccScript
