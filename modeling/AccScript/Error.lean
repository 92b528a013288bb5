import AccScript.Source.Position

/-!
# Compile errors

`CompileError` is what a caller sees. Inside the compiler an operation may also find one of its
own preconditions broken; `Failure` keeps the two apart, and `Failure.toCompileError` says what a
whole compilation makes of it.
-/

namespace AccScript

/-- Why a program or its options are refused. -/
inductive CompileError where
  /-- Two parts of the compiler disagree. -/
  | internal (cause : String)
  /-- A precondition inside the compiler was broken. -/
  | aborted
  | unsupported (construct : String) (position : Position)
  | invalidOptions (cause : String)
  /-- The text of the options is not an object of options. -/
  | unreadableOptions
  /-- The options have no text. -/
  | unwritableOptions
  /-- The backend could not be started. -/
  | backendUnavailable
deriving DecidableEq, Repr

namespace CompileError

def message : CompileError → Option String
  | .internal cause => some ("internal compiler error: " ++ cause)
  | .unsupported construct position =>
      some (construct ++ " is not supported at " ++ toString position.line ++ ":" ++
        toString position.column)
  | .invalidOptions cause => some ("invalid compile options: " ++ cause)
  | .aborted => none
  | .unreadableOptions => none
  | .unwritableOptions => none
  | .backendUnavailable => none

end CompileError

/-- A precondition that an operation checks. -/
inductive Precondition where
  | general
  /-- No more temporaries are given back than have been taken. -/
  | temporaries
  /-- The boundary that is left is the innermost one. -/
  | boundary
deriving DecidableEq, Repr

/-- How an operation of the compiler fails. -/
inductive Failure where
  | error (error : CompileError)
  /-- A precondition of the operation does not hold. -/
  | broken {precondition : Precondition}
deriving DecidableEq, Repr

namespace Failure

def internal (cause : String) : Failure :=
  .error (.internal cause)

def unsupported (construct : String) (position : Position) : Failure :=
  .error (.unsupported construct position)

/-- A precondition that has no name of its own. -/
def unmet : Failure :=
  @broken .general

/-- A compilation that breaks a precondition is given up without a text. -/
def toCompileError : Failure → CompileError
  | .error e => e
  | .broken => .aborted

end Failure

/-- The value, or a broken precondition where there is none. -/
def orBroken {α : Type} : Option α → Except Failure α
  | some a => .ok a
  | none => .error .unmet

end AccScript
