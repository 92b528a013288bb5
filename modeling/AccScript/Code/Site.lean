import AccScript.Code.Operand
import AccScript.Scope.Basic

/-!
# Sites

An instruction that depends on what is around it keeps its site: what it is emitted for, the scope
and the boundaries at that moment, and what encloses it in the source.
-/

namespace AccScript

/-- What stands between a jump and its target. -/
inductive Boundary where
  | breakTarget
  | continueTarget
  /-- The environment of the loop that has this scope, to be popped on the way out. -/
  | environment (loop : ScopeId := 0)
  /-- A finalizer, to be run on the way out. -/
  | finalizer (index : Nat)
  /-- A protected range. -/
  | region (index : Nat)
deriving DecidableEq, Repr

/-- The two statements that jump. -/
inductive JumpWord where
  | break
  | continue
deriving DecidableEq, Repr

/-- What is done when a protected range is left. -/
inductive FinalizerKind where
  /-- The block behind `finally`. -/
  | block
  /-- The iterator of a `for`-`of` loop is closed. -/
  | closing (iterator : Register)
deriving DecidableEq, Repr

/-- What encloses code in the source, as far as jumps out of it are concerned. -/
inductive Enclosure where
  /-- A statement that `break` leaves, and the label behind it. -/
  | breakable (behind : Label) (names : List String) (acceptsUnlabelled : Bool)
  /-- The body of a loop, and the label where the next iteration is prepared. -/
  | continuable (next : Label) (names : List String)
  /-- An iteration of a loop with an environment of its own. -/
  | iteration (loop : ScopeId)
  /-- Code in a protected range that a finalizer follows; the scope is that of the statement. -/
  | guarded (region : Nat) (kind : FinalizerKind) (scope : ScopeId)
  /-- A copy of the finalizer of a protected range; an inlined copy stands in front of a jump out
  of the range. -/
  | finalizer (region : Nat) (isInlined : Bool)
deriving DecidableEq, Repr

/-- What an instruction is emitted for. -/
inductive Subject where
  /-- An access to a captured variable. -/
  | variable (v : VariableId)
  /-- A slot that is handed on to the next iteration of a loop. -/
  | iteration
  /-- A new environment of a scope. -/
  | environment (scope : ScopeId)
  /-- The definition of functions; a class comes with its constructor and its first methods. -/
  | functions (nodes : List NodeId)
  /-- A `throw` statement. -/
  | exception
  /-- A `break` or a `continue`, whose code starts at the given place. -/
  | jump (word : JumpWord) (name : Option String) (start : Nat)
  /-- A `return`; the code behind its value starts at the given place. -/
  | result (start : Nat)
deriving DecidableEq, Repr

/-- Where an instruction is emitted. -/
structure Site where
  subject : Subject
  /-- The scope that names are resolved from. -/
  scope : ScopeId
  /-- The variable scope of the unit. -/
  functionScope : ScopeId
  /-- The boundaries around the instruction, the innermost first. -/
  boundaries : List Boundary
  /-- What encloses the instruction in the source, the innermost first. -/
  enclosing : List Enclosure
  /-- Whether the instruction initializes the instance fields of a class. -/
  inFields : Bool
deriving DecidableEq, Repr

end AccScript
