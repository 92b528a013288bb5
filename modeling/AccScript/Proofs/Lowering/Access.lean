import AccScript.Proofs.Lowering.Calm

/-!
# Plain pieces of code

The short instruction sequences of the assembler and of the lowering combinators that need nothing
but registers.  None of them touches an environment, so each is plain.
-/

namespace AccScript

open Asm Lower

variable {S : Setting} {ls : List Label} {l : Label} (object : Register) (key : KeyOperand)

/-! ## Properties, operators and jumps -/

theorem plain_loadProperty :
    Plain S ls (loadProperty object key) := by
  cases key with
  | name name =>
    exact (plain_intern name).bind fun _ => (plain_lda object).then <| plain_emit rfl
  | index index => exact (plain_lda object).then <| plain_emit rfl
  | value key => exact (plain_lda key).then <| plain_emit rfl

theorem plain_binary (op : BinaryOp) (lhs : Register) : Plain S ls (binary op lhs) :=
  plain_emit rfl

theorem plain_unary (op : AccumulatorOp) : Plain S ls (unary op) :=
  plain_emit rfl

theorem plain_jumpIfTrue (mem : l ∈ ls) : Plain S ls (jumpIfTrue l) :=
  (plain_unary _).then <| plain_jeqz mem

theorem plain_requireThis : Plain S ls requireThis :=
  plain_emit rfl

/-! ## Iteration -/

theorem plain_callNext (iterator next result : Register) :
    Plain S ls (callNext iterator next result) :=
  (plain_lda next).then <| (plain_emit rfl).then <| (plain_sta result).then <|
    (plain_emit rfl).then <| plain_loadProperty result _

theorem plain_startIteration (iterator next : Register) :
    Plain S ls (startIteration iterator next) :=
  (plain_emit rfl).then <| (plain_sta iterator).then <|
    (plain_loadProperty iterator _).then <| plain_sta next

end AccScript
