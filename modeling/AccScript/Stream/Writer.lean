import AccScript.Stream.Transmission

/-!
# Writers

A writer frames pieces as they come. It ends its stream once: when it is finished, or when it is
dropped without that.
-/

namespace AccScript

/-- What has been written so far, and whether more can follow. -/
structure Writer where
  written : List Char := []
  isOpen : Bool := true
deriving DecidableEq, Repr

abbrev Writing := ExceptT CompileError (StateM Writer)

namespace Writer

/-- Ends the stream. -/
def terminate (w : Writer) : Writer where
  written := w.written ++ Stream.terminator
  isOpen := false

/-- Gives the writer up; a stream that has not been ended is ended now. -/
def drop (w : Writer) : Writer :=
  if w.isOpen then w.terminate else w

def write (piece : Piece) : Writing Unit := do
  if (← get).isOpen then
    modify fun w => { w with written := w.written ++ Stream.frame piece.text }
  else throw (.internal "write to a terminated pipe")

def finish : Writing Unit := do
  if (← get).isOpen then modify terminate
  else throw (.internal "pipe terminated twice")

def stream (steps : Writing Unit) (isFinished : Bool) : List Char :=
  let (_, w) := (do steps; if isFinished then finish : Writing Unit).run {}
  w.drop.written

end Writer

end AccScript
