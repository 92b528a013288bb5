import AccScript.Error
import Mathlib.Logic.Basic

/-!
# Outcomes that agree

Two computations agree if both succeed, with related results, or both fail, with errors of the same
variant.  The texts and positions of the errors may differ.
-/

namespace AccScript

/-- The variants of errors. -/
inductive ErrorVariant where
  | internal
  | aborted
  | unsupported
  | invalidOptions
  | unreadableOptions
  | unwritableOptions
  | backendUnavailable
deriving DecidableEq, Repr

def CompileError.variant : CompileError → ErrorVariant
  | .internal _ => .internal
  | .aborted => .aborted
  | .unsupported _ _ => .unsupported
  | .invalidOptions _ => .invalidOptions
  | .unreadableOptions => .unreadableOptions
  | .unwritableOptions => .unwritableOptions
  | .backendUnavailable => .backendUnavailable

def Failure.variant (failure : Failure) : ErrorVariant :=
  failure.toCompileError.variant

/-- A computation that succeeds has succeeded in each step. -/
theorem exists_of_bind_eq_ok {α β : Type} {x : Except Failure α} {f : α → Except Failure β} {y : β}
    (h : x >>= f = .ok y) : ∃ a, x = .ok a ∧ f a = .ok y := by
  cases x with
  | error failure => cases h
  | ok a => exact ⟨a, rfl, h⟩

/-- Both succeed with related results, or both fail alike. -/
inductive Agrees {α β : Type} (R : α → β → Prop) :
    Except Failure α → Except Failure β → Prop
  | ok {x : α} {y : β} (related : R x y) : Agrees R (.ok x) (.ok y)
  | error {f g : Failure} (same : f.variant = g.variant) : Agrees R (.error f) (.error g)

namespace Agrees

variable {α β γ δ : Type} {R : α → β → Prop} {S : γ → δ → Prop} {m' : Except Failure β}
  {m : Except Failure α}

theorem of_eq {m m' : Except Failure α} (same : m = m') : Agrees Eq m m' := by
  subst same
  cases m with
  | ok x => exact .ok rfl
  | error f => exact .error rfl

theorem refl (m : Except Failure α) : Agrees Eq m m :=
  of_eq rfl

theorem of_ok {x : α} (h : Agrees R (.ok x) m') : ∃ y, m' = .ok y ∧ R x y := by
  cases h with
  | ok related => exact ⟨_, rfl, related⟩

theorem mono {R' : α → β → Prop} (h : Agrees R m m')
    (weaker : ∀ x y, m = .ok x → R x y → R' x y) : Agrees R' m m' := by
  cases h with
  | ok related => exact .ok (weaker _ _ rfl related)
  | error same => exact .error same

theorem bind {f : α → Except Failure γ}
    {f' : β → Except Failure δ} (h : Agrees R m m') (next : ∀ x y, R x y → Agrees S (f x) (f' y)) :
    Agrees S (m >>= f) (m' >>= f') := by
  cases h with
  | ok related => exact next _ _ related
  | error same => exact .error same

theorem foldlM {ι : Type} {f : α → ι → Except Failure α} {f' : β → ι → Except Failure β}
    (step : ∀ x y i, R x y → Agrees R (f x i) (f' y i)) (items : List ι) {x : α} {y : β}
    (related : R x y) : Agrees R (items.foldlM f x) (items.foldlM f' y) := by
  induction items generalizing x y with
  | nil => exact .ok related
  | cons i rest ih =>
    rw [List.foldlM_cons, List.foldlM_cons]
    exact (step x y i related).bind fun _ _ related => ih related

theorem join {ζ : Type} {R' : ζ → β → Prop} {T : α → ζ → Prop}
    {n : Except Failure ζ} (first : Agrees R m m') (second : Agrees R' n m')
    (related : ∀ x z y, R x y → R' z y → T x z) : Agrees T m n := by
  cases first with
  | ok r =>
    cases second with
    | ok r' => exact .ok (related _ _ _ r r')
  | error same =>
    cases second with
    | error same' => exact .error (same.trans same'.symm)

end Agrees

end AccScript
