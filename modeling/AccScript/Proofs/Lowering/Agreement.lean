import AccScript.Proofs.Lowering.Program
import AccScript.Proofs.Survey.Complete

/-!
# The survey and the code agree

The survey and the code generator walk over a program on their own.  Where the code generator asks
for a scope, a function, a name or a slot, the survey must have come by with the same question.

`no_disagreement` says that it has: on a lawful program with distinct nodes, code generation never
fails with one of the messages that report a disagreement.  It is not enough that jumps have
targets and that arrow functions are not marked as expressions; the classes of declarations must
not be marked as expressions either, as `disagrees_masked` shows.
-/

namespace AccScript

variable {failure : Failure}

/-- Failures that show a disagreement of the code generator with the survey, and jumps that lead
nowhere. -/
inductive Failure.Disagrees : Failure → Prop
  | captured (name : String) (scope : ScopeId) :
      Disagrees (.internal ("'" ++ name ++ "' is captured from scope " ++ toString scope ++
        " but was never promoted"))
  | scope (node : NodeId) :
      Disagrees (.internal ("no scope recorded for node " ++ toString node))
  | function (node : NodeId) :
      Disagrees (.internal ("no function recorded for node " ++ toString node))
  | functionName (node : NodeId) :
      Disagrees (.internal ("function node " ++ toString node ++ " has no internal name"))
  | unitName (node : NodeId) :
      Disagrees (.internal ("unit " ++ toString node ++ " has no internal name"))
  | classConstructor (node : NodeId) :
      Disagrees (.internal ("class node " ++ toString node ++ " has no constructor"))
  | parameters : Disagrees (.internal "function has fewer bound parameters than declared")
  | breakTarget (position : Position) : Disagrees (Lower.noTarget "break" position)
  | continueTarget (position : Position) : Disagrees (Lower.noTarget "continue" position)

/-! ## The texts of failures -/

/-- The first character of the text of an internal failure. -/
def Failure.initial? : Failure → Option Char
  | .error (.internal cause) => cause.toList.head?
  | _ => none

theorem isDigit_of_head?_toString {n : Nat} {text : String} {c : Char}
    (h : (toString n ++ text).toList.head? = some c) : c.isDigit = true := by
  rw [String.toList_append, Nat.toString_eq_repr, Nat.toList_repr,
    List.head?_append_of_ne_nil _ Nat.toDigits_ne_nil] at h
  exact Nat.isDigit_of_mem_toDigits (by decide) (by decide) (List.mem_of_mem_head? h)

theorem Failure.Tolerable.initial? (h : failure.Tolerable) {c : Char}
    (initial : failure.initial? = some c) : c.isDigit = true ∨ c ∈ ['s', 't', 'm', 'd'] := by
  cases h with
  | broken | unsupported => cases initial
  | spread | bareTry | noRest =>
    cases initial
    decide
  | bigInt literal =>
    simp only [Failure.initial?, Failure.internal, String.toList_append] at initial
    cases initial
    decide
  | leaked count => exact .inl (isDigit_of_head?_toString initial)
  | stillLive count position =>
    simp only [Failure.initial?, Failure.internal, Lower.stillLive, String.append_assoc] at initial
    exact .inl (isDigit_of_head?_toString initial)

theorem Failure.Disagrees.initial? (h : failure.Disagrees) :
    ∃ c ∈ ['\'', 'n', 'f', 'u', 'c'], failure.initial? = some c := by
  cases h with
  | captured => exact ⟨'\'', by decide, by simp [Failure.initial?, Failure.internal]⟩
  | scope | function => exact ⟨'n', by decide, by simp [Failure.initial?, Failure.internal]⟩
  | functionName | parameters =>
    exact ⟨'f', by decide, by simp [Failure.initial?, Failure.internal]⟩
  | unitName => exact ⟨'u', by decide, by simp [Failure.initial?, Failure.internal]⟩
  | classConstructor => exact ⟨'c', by decide, by simp [Failure.initial?, Failure.internal]⟩
  | breakTarget | continueTarget =>
    exact ⟨'n', by decide, by simp [Failure.initial?, Failure.internal, Lower.noTarget]⟩

theorem Failure.Disagrees.not_tolerable (h : failure.Disagrees) : ¬failure.Tolerable := by
  intro tolerable
  obtain ⟨c, mem, initial⟩ := h.initial?
  have apart : ∀ c ∈ ['\'', 'n', 'f', 'u', 'c'],
      ¬(c.isDigit = true ∨ c ∈ ['s', 't', 'm', 'd']) := by simp
  exact apart c mem (tolerable.initial? initial)

/-! ## Analysed programs -/

namespace CompileContext

variable {p : Program} {options : Options} {types : TypeTable} {c : CompileContext}

/-- What is known about a program that was surveyed. -/
def surveyedSetting (c : CompileContext) (tree : c.survey.tree.WellFormed) : Setting where
  toLedger := c.ledger fun _ => True
  functionScope := ScopeTree.rootId
  discipline := .unknown
  wellFormed _ := tree
  lawful := nofun
  contained := nofun
  obeys known := absurd rfl known

def lawfulSetting (c : CompileContext) (tree : c.survey.tree.WellFormed)
    (lawful : c.program.Lawful) : Setting where
  toLedger := c.ledger FunctionNode.Lawful
  functionScope := ScopeTree.rootId
  discipline := .lawful
  wellFormed _ := tree
  lawful _ _ admitted := admitted
  contained := nofun
  obeys _ := lawful.statements

theorem completes_of_run (numbered : p.WellNumbered) (analyzed : ofProgram p options types = .ok c)
    {result : CompiledProgram} (compiled : c.run = .ok result) :
    ∃ (tree : c.survey.tree.WellFormed) (front : List UnitSource),
      (c.surveyedSetting tree).Completes (front ++ [.program]) result.units result.tables ∧
        (c.nodes (front ++ [.program])).Nodup := by
  obtain ⟨σ, τ, rfl, analysis⟩ := analysis_of_ofProgram numbered analyzed
  have outcome := run_outcome (S := surveyedSetting _ analysis.rooted.toWellFormed)
    (analysis.surveyedRoot fun _ _ _ _ => trivial)
  rw [show (surveyedSetting _ analysis.rooted.toWellFormed).run = _ from compiled] at outcome
  obtain ⟨sources, completes, distinct, last⟩ := outcome
  obtain ⟨front, rfl⟩ := last trivial
  exact ⟨_, front, completes, distinct⟩

end CompileContext

/-- Code generation never disagrees with the survey of a lawful program. -/
theorem no_disagreement {p : Program} {options : Options} {types : TypeTable} {c : CompileContext}
    (numbered : p.WellNumbered) (lawful : p.Lawful)
    (analyzed : CompileContext.ofProgram p options types = .ok c) :
    ¬∃ failure : Failure, failure.Disagrees ∧ c.run = .error failure := by
  rintro ⟨failure, disagrees, failed⟩
  obtain ⟨σ, τ, rfl, analysis⟩ := CompileContext.analysis_of_ofProgram numbered analyzed
  have outcome := run_outcome (S := CompileContext.lawfulSetting _ analysis.rooted.toWellFormed lawful)
    (analysis.surveyedRoot lawful.functions)
  rw [show (CompileContext.lawfulSetting _ analysis.rooted.toWellFormed lawful).run = _
    from failed] at outcome
  exact disagrees.not_tolerable (outcome trivial rfl)

/-- The example has a closure, a class without a constructor, and a jump through a finalizer. -/
theorem no_disagreement_collector : Program.collector.WellNumbered ∧ Program.collector.Lawful ∧
      ∃ c, CompileContext.ofProgram .collector {} (fun _ => none) = .ok c ∧
        ¬∃ failure : Failure, failure.Disagrees ∧ c.run = .error failure := by
  obtain ⟨c, result, analyzed, -⟩ := collector_compiles
  have numbered : Program.collector.WellNumbered := by decide
  have lawful : Program.collector.Lawful := by decide
  exact ⟨numbered, lawful, c, analyzed, no_disagreement numbered lawful analyzed⟩

/-! ## A class that is hidden from its declaration -/

/-- Inside of a function the name of a class is declared twice; the inner declaration is marked as an
expression. -/
def Program.masked : Program :=
  let statement (id : NodeId) (kind : StatementKind) : Statement := ⟨id, ⟨1, 0⟩, kind⟩
  let function (id : NodeId) (name : String) (body : List Statement) : FunctionNode :=
    ⟨id, ⟨1, 0⟩, some ⟨name, id + 1⟩, .normal, false, [], .block ⟨id + 2, body⟩, false⟩
  let inner := function 1 "inner"
    [statement 4 (.classDecl ⟨5, ⟨1, 0⟩, some ⟨"A", 6⟩, none, true, []⟩ .none)]
  let outer := function 7 "outer" [
    statement 10 (.variableDecl ⟨.let, [⟨⟨1, 0⟩, .identifier ⟨"A", 11⟩, none⟩]⟩ false),
    statement 12 (.functionDecl inner .none)]
  { id := 0, position := ⟨1, 0⟩, statements := [statement 13 (.functionDecl outer .none)]
    isStrict := false, nextNodeId := 14, derivedFrom := [] }

/-- Every jump has a target, whatever declarations look like. -/
def JumpRules.targeted : JumpRules where
  finalizer ctx := ctx
  declares _ := True

instance : DecidablePred JumpRules.targeted.declares :=
  fun _ => .isTrue trivial

/-- The declaration of the inner class looks for its name outside, where the survey has not been. -/
theorem disagrees_masked : Program.masked.WellNumbered ∧
      Statement.ObeysList .targeted {} Program.masked.statements ∧
      (∀ node ∈ Program.masked.nodes, ∀ f, node.function = some f →
        (f.kind.isArrow = true → f.isExpression = false) ∧ f.body.Obeys .targeted {}) ∧
      ∃ c, CompileContext.ofProgram .masked {} (fun _ => none) = .ok c ∧
        ∃ failure : Failure, failure.Disagrees ∧ c.run = .error failure := by
  refine ⟨by decide, by decide, by decide, ?_⟩
  have failed : (CompileContext.ofProgram .masked {} (fun _ => none)).toOption.bind (fun c =>
      c.run.casesOn some fun _ => none) =
        some (.internal "'A' is captured from scope 4 but was never promoted") := by
    decide +kernel
  cases analyzed : CompileContext.ofProgram .masked {} (fun _ => none) with
  | error failure =>
    rw [analyzed] at failed
    cases failed
  | ok c =>
    rw [analyzed] at failed
    cases run : c.run with
    | ok result => simp [Except.toOption, run] at failed
    | error failure =>
      simp only [Except.toOption, Option.bind_some, run, Option.some.injEq] at failed
      exact ⟨c, rfl, failure, failed ▸ .captured "A" 4, run⟩

end AccScript
