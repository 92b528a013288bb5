import AccScript.Proofs.Assembly.Flow

/-!
# Short sequences

Constants, properties and operators: the pieces that larger code is made of.  Code that
works on the registers of others has them among its own temporaries.
-/

namespace AccScript

open Asm

variable {G : Guard} {σ : Stage} {target : Label}

def KeyOperand.temps : KeyOperand → List Register
  | .value key => [key]
  | _ => []

/-! ## Constants -/

theorem neutral_constant (value : Constant) : Neutral (constant value) :=
  neutral_emit rfl

theorem neutral_loadNumber (value : Binary64) : Neutral (loadNumber value) := by
  unfold loadNumber
  split
  · exact neutral_emit rfl
  · exact neutral_emit rfl

theorem neutral_loadNat (n : Nat) : Neutral (loadNat n) :=
  neutral_loadNumber _

/-! ## Properties -/

section Properties

variable {object : Register} {key : KeyOperand}

theorem flows_loadProperty (own : object ∈ σ.temps) (keys : ∀ r ∈ key.temps, r ∈ σ.temps) :
    Flows G σ (loadProperty object key) fun _ => σ := by
  cases key with
  | name name =>
    exact (neutral_intern name).bind fun _ => (flows_lda own).seq <| neutral_emit rfl G σ
  | index index => exact (flows_lda own).seq <| neutral_emit rfl G σ
  | value key =>
    have own_key : key ∈ σ.temps := keys key (.head _)
    exact (flows_lda own_key).seq <| flows_use [object] (by simpa using own) rfl rfl rfl

end Properties

/-! ## Operators and jumps -/

theorem flows_binary (op : BinaryOp) {lhs : Register} (own : lhs ∈ σ.temps) :
    Flows G σ (binary op lhs) fun _ => σ :=
  flows_use [lhs] (by simpa using own) rfl rfl rfl

theorem neutral_unary (op : AccumulatorOp) : Neutral (unary op) :=
  neutral_emit rfl

theorem flows_branch (known : σ.Knows target) : Flows G σ (branch target) fun _ => σ :=
  flows_jump target known rfl rfl rfl

theorem flows_jumpIfTrue (known : σ.Knows target) : Flows G σ (jumpIfTrue target) fun _ => σ :=
  (neutral_unary _).seq <| flows_jump target known rfl rfl rfl

theorem neutral_popEnvironment : Neutral popEnvironment :=
  neutral_emit rfl

end AccScript
