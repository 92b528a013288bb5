import AccScript.Code.Operand
import AccScript.Scope.Tree
import AccScript.Text.Json

/-!
# Variable tables

The rows that tell a debugger which register holds a variable over which instructions.
-/

namespace AccScript

/-- The instructions of a scope: from `start` up to, not including, `stop`. -/
structure ScopeRange where
  scope : ScopeId
  start : Nat
  stop : Nat
deriving DecidableEq, Repr

/-- One row of a variable table. Every variable is of the type `any`. -/
structure VariableRow where
  name : String
  register : Register
  start : Nat
  length : Nat
deriving DecidableEq, Repr

namespace VariableRow

def signature : String := "any"

def toJson (row : VariableRow) : Json :=
  .object [("n", .string row.name), ("s", .string signature), ("st", .string signature),
    ("r", .nat row.register.index), ("start", .nat row.start), ("len", .nat row.length)]

end VariableRow

namespace ScopeTree

def variableRow? (t : ScopeTree) (range : ScopeRange) (registerOf : VariableId → Option Register)
    (isInitialized : VariableId → Bool) (v : VariableId) : Option VariableRow := do
  let data ← t.var? v
  if data.isImplicit || data.scope ≠ range.scope then none
  else if !data.startsInitialized && !isInitialized v then none
  else
    let register ← registerOf v
    some ⟨data.name, register, range.start, range.stop - range.start⟩

def variableTable (t : ScopeTree) (ranges : List ScopeRange)
    (registerOf : VariableId → Option Register) (isInitialized : VariableId → Bool) :
    List VariableRow :=
  ranges.flatMap fun range =>
    (((t.scope? range.scope).map Scope.names).getD []).filterMap fun entry =>
      t.variableRow? range registerOf isInitialized entry.2

end ScopeTree

end AccScript
