import AccScript.Proofs.Code.Links
import AccScript.Proofs.Source.Lawful
import AccScript.Proofs.Survey.Surveyed

/-!
# The setting in which a unit is assembled

What does not change while the code of one unit is made, and how that code may go wrong.

A `Setting` fixes the analysed program and the function scope of the unit.  It also tells how much
is known.  The addresses of variables need a survey that was made from the program; that no
reference fails needs a lawful program besides; the balance of environments needs no survey, but
jumps that do not leave finalizers.  One development serves all three.
-/

namespace AccScript

/-- Failures of code generation that show no disagreement with the survey. -/
inductive Failure.Tolerable : Failure → Prop
  | broken {precondition : Precondition} : Tolerable (@Failure.broken precondition)
  | unsupported (construct : String) (position : Position) :
      Tolerable (.unsupported construct position)
  | spread : Tolerable (.internal "spread element outside of a call or array literal")
  | bareTry : Tolerable (.internal "try statement without catch or finally")
  | bigInt (literal : String) :
      Tolerable (.internal ("malformed BigInt literal '" ++ literal ++ "'"))
  | noRest : Tolerable (.internal "derived default constructor has no rest parameter")
  | stillLive (count : Nat) (position : Position) : Tolerable (Lower.stillLive count position)
  | leaked (count : Nat) :
      Tolerable (.internal (toString count ++ " temporary register(s) leaked"))

/-- What is known about the jumps of a program. -/
inductive Discipline where
  | unknown
  /-- Every jump has a target. -/
  | lawful
  /-- No jump leaves a finalizer. -/
  | contained
deriving DecidableEq

namespace Discipline

def rules : Discipline → JumpRules
  | .contained => .contained
  | _ => .lawful

/-- What jumps can reach at the start of a unit. -/
def start (d : Discipline) : JumpContext :=
  { isUnchecked := d = .contained }

end Discipline

/-- The analysed program and the unit, with what is known about them. -/
structure Setting extends Ledger where
  functionScope : ScopeId
  /-- The tables of the program before the unit. -/
  tables : Tables := {}
  discipline : Discipline
  wellFormed : surveyed → survey.tree.WellFormed
  lawful : discipline = .lawful → ∀ f, admits f → f.Lawful
  contained : discipline = .contained → ∀ f, admits f → f.ContainsJumps
  /-- The jumps of the program root. -/
  obeys : discipline ≠ .unknown →
    Statement.ObeysList discipline.rules discipline.start program.statements

namespace Setting

variable (S : Setting)

def tree : ScopeTree :=
  S.survey.tree

/-- The number of environments of the unit outside of all loops. -/
def base : Nat :=
  if S.tree.needsEnv S.functionScope then 1 else 0

/-- A failure is excused unless everything is known to be in order. -/
def Tolerates (failure : Failure) : Prop :=
  S.surveyed → S.discipline = .lawful → failure.Tolerable

variable {S}

theorem tolerates_of_tolerable {failure : Failure} (h : failure.Tolerable) : S.Tolerates failure :=
  fun _ _ => h

theorem obeys_of_admits {f : FunctionNode} (h : S.admits f) (known : S.discipline ≠ .unknown) :
    f.body.Obeys S.discipline.rules S.discipline.start := by
  cases d : S.discipline with
  | unknown => exact absurd d known
  | lawful => exact (S.lawful d f h).body
  | contained => exact S.contained d f h

end Setting

/-! ## Specifications of code -/

section Specification

variable {α β : Type} {S : Setting}

/-- From a state with `pre`, a step fails tolerably or ends in a state with `post`. -/
structure Spec (S : Setting) (pre : Assembler → Prop) (m : Asm α) (post : α → Assembler → Prop) :
    Prop where
  outcome : ∀ a, pre a →
    match m.run a with
    | .ok (x, b) => post x b
    | .error failure => S.Tolerates failure

namespace Spec

variable {pre : Assembler → Prop} {mid : α → Assembler → Prop} {post : β → Assembler → Prop}
  {m : Asm β} {f : α → Lower β}

theorem of_run (h : ∀ a, pre a → ∃ x b, m.run a = .ok (x, b) ∧ post x b) : Spec S pre m post := by
  refine ⟨fun a ha => ?_⟩
  obtain ⟨x, b, run, hb⟩ := h a ha
  rw [run]
  exact hb

theorem pure {x : β} (h : ∀ a, pre a → post x a) : Spec S pre (Pure.pure x) post :=
  ⟨h⟩

theorem bind {m : Asm α} {f : α → Asm β} (first : Spec S pre m mid)
    (next : ∀ x, Spec S (mid x) (f x) post) : Spec S pre (m >>= f) post := by
  refine ⟨fun a ha => ?_⟩
  have step := first.outcome a ha
  rw [StateT.run_bind]
  cases run : m.run a with
  | error failure =>
    rw [run] at step
    exact step
  | ok result =>
    obtain ⟨x, b⟩ := result
    rw [run] at step
    exact (next x).outcome b step

theorem weaken {pre' : Assembler → Prop} {post' : β → Assembler → Prop}
    (h : Spec S pre m post) (before : ∀ a, pre' a → pre a)
    (after : ∀ x b, post x b → post' x b) : Spec S pre' m post' := by
  refine ⟨fun a ha => ?_⟩
  have step := h.outcome a (before a ha)
  cases run : m.run a with
  | error failure =>
    rw [run] at step
    exact step
  | ok result =>
    rw [run] at step
    exact after result.1 result.2 step

theorem throw {failure : Failure} (h : S.Tolerates failure) :
    Spec S pre (throw failure : Asm β) post :=
  ⟨fun _ _ => h⟩

theorem get {f : Assembler → Asm β} (h : ∀ a, pre a → Spec S (· = a) (f a) post) :
    Spec S pre (get >>= f) post :=
  ⟨fun a ha => (h a ha).outcome a rfl⟩

theorem of_eq (h : ∀ a, pre a → Spec S (· = a) m post) : Spec S pre m post :=
  ⟨fun a ha => (h a ha).outcome a rfl⟩

theorem liftExcept {x : Except Failure β} (failed : ∀ failure, x = .error failure → S.Tolerates failure)
    (done : ∀ y, x = .ok y → ∀ a, pre a → post y a) : Spec S pre (liftM x : Asm β) post := by
  refine ⟨fun a ha => ?_⟩
  cases h : x with
  | error failure => exact failed failure h
  | ok y => exact done y h a ha

/-- A value that may be missing. -/
theorem orBroken {x : Option α} {f : α → Asm β} (h : ∀ y, x = some y → Spec S pre (f y) post) :
    Spec S pre (liftM (AccScript.orBroken x) >>= f) post := by
  cases x with
  | none => exact ⟨fun _ _ => Setting.tolerates_of_tolerable .broken⟩
  | some y => exact h y rfl

/-! ### Sequences of lowering steps -/

variable {env : Env}

theorem step {m : Asm α} (first : Spec S pre m mid)
    (next : ∀ x, Spec S (mid x) (f x env) post) : Spec S pre ((liftM m >>= f) env) post :=
  first.bind next

theorem follow {m : Lower α} (first : Spec S pre (m env) mid)
    (next : ∀ x, Spec S (mid x) (f x env) post) : Spec S pre ((m >>= f) env) post :=
  first.bind next

theorem inspect {f : Assembler → Lower β} (h : ∀ a, pre a → Spec S (· = a) (f a env) post) :
    Spec S pre ((MonadState.get >>= f) env) post :=
  ⟨fun a ha => (h a ha).outcome a rfl⟩

theorem consult {f : Env → Lower β} (h : Spec S pre (f env env) post) :
    Spec S pre ((MonadReader.read >>= f) env) post :=
  h

theorem require {x : Option α} (h : ∀ y, x = some y → Spec S pre (f y env) post) :
    Spec S pre ((liftM (AccScript.orBroken x) >>= f) env) post :=
  .orBroken h

/-- What holds in all states before a step can be assumed. -/
theorem given {p : Prop} (h : p → Spec S pre m post) : Spec S (fun a => p ∧ pre a) m post :=
  ⟨fun a both => (h both.1).outcome a both.2⟩

theorem before {mid : Assembler → Prop} {m : Asm α} {n : Lower β}
    (first : Spec S pre m fun _ => mid) (next : Spec S mid (n env) post) :
    Spec S pre ((liftM m >>= fun _ => n) env) post :=
  first.step fun _ => next

end Spec

theorem Spec.then {pre mid : Assembler → Prop} {post : β → Assembler → Prop} {m : Asm α} {n : Asm β}
    (first : Spec S pre m fun _ => mid) (next : Spec S mid n post) :
    Spec S pre (m >>= fun _ => n) post :=
  first.bind fun _ => next

end Specification

end AccScript
