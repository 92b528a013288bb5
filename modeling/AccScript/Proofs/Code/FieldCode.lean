import AccScript.Proofs.Code.Loads

/-!
# The code of instance fields

The instance fields of a class are defined one after the other, in the order of the source, each with
its key and the value of its initializer.  All of them are defined on one register, which `this` was
stored to in front of them.
-/

namespace AccScript

open Asm Lower

variable {env : Env} {a b : Assembler} {object : Register}

/-- The instance fields among members, in the order of the source. -/
def ClassMember.instanceFields (members : List ClassMember) : List ClassMember :=
  members.filter fun member => !member.isStatic && member.kind.isField

end AccScript
