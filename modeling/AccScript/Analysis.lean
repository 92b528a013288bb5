import AccScript.Survey.Binding
import AccScript.Survey.Walk

/-!
# Analysis of a whole program

The survey of a program with its variables, where every variable that a closure captures has its
slot. All uses are seen before any code is made, because a late capture changes the levels of
earlier accesses.
-/

namespace AccScript

namespace Survey

/-- Gives captured variables their slots. -/
def resolveReferences (survey : Survey) (options : Options) : Survey :=
  { survey with
    tree := survey.tree.resolveReferences options.commonjs survey.references.toList }

def analyze (program : Program) (options : Options) (types : TypeTable) :
    Except Failure Survey := do
  match options.validate with
  | .ok _ => pure ()
  | .error e => throw (.error e)
  let survey ← ofProgram program options
  let survey ← survey.bind program options types
  return survey.resolveReferences options

end Survey

def mainUnitName : String := "func_main_0"

def FunctionFacts.internalName (nameCounts : NameMap Nat) (facts : FunctionFacts) : String :=
  if facts.name.isEmpty then "#" ++ toString facts.sequence ++ "#"
  else if nameCounts.get? facts.name = some 1 then "#*#" ++ facts.name
  else "#" ++ toString facts.sequence ++ "#" ++ facts.name

def Survey.nameUnit (survey : Survey) (names : OrderedMap NodeId String) (node : NodeId) :
    OrderedMap NodeId String :=
  match survey.functions.get? node with
  | some facts => names.insert node (facts.internalName survey.nameCounts)
  | none => names

def Survey.internalNames (survey : Survey) (program : Program) : OrderedMap NodeId String :=
  survey.functionOrder.toList.foldl survey.nameUnit [(program.id, mainUnitName)]

end AccScript
