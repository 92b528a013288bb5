import AccScript.Scope.Lookup
import Mathlib.Tactic.Common

/-!
# Scopes and the environments around them

A scope tree is built from the root downward, so every parent stands before its children and the
walk toward the root never runs out of steps.  This module turns the bounded walk into the
recursion on parents that proofs want, and studies the list of environments that are open in a
scope: its lexical ancestors that own an environment at run time, the innermost first.

Blocks own no environment, so entering one changes nothing.  Entering a loop puts the loop in front
exactly if one of its variables is captured.  The level that is computed for a captured variable is
the place of its owner in this list.
-/

namespace AccScript.ScopeTree

variable {t : ScopeTree}

def parent? (t : ScopeTree) (s : ScopeId) : Option ScopeId :=
  (t.scope? s).bind Scope.parent

/-- Every scope is created after the scope around it. -/
def Ordered (t : ScopeTree) : Prop :=
  ∀ s p : Nat, t.parent? s = some p → p < s

/-- The environments that are open in a scope, the innermost first. -/
def environments (t : ScopeTree) (s : ScopeId) : List ScopeId :=
  (t.ancestors s).filter fun s => t.isLexical s && t.needsEnv s

/-! ## The walk toward the root -/

theorem ancestorsWithin_succ (t : ScopeTree) (steps : Nat) (s : ScopeId) :
    t.ancestorsWithin (steps + 1) s =
      s :: ((t.parent? s).map (t.ancestorsWithin steps)).getD [] := by
  unfold ancestorsWithin parent?
  cases (t.scope? s).bind Scope.parent <;> simp

/-- Only parents matter to the walk. -/
theorem ancestors_congr {u : ScopeTree} (same : u.parent? = t.parent?) :
    u.ancestors = t.ancestors := by
  have within (steps : Nat) : u.ancestorsWithin steps = t.ancestorsWithin steps := by
    induction steps with
    | zero => rfl
    | succ steps ih =>
      funext s
      rw [ancestorsWithin_succ, ancestorsWithin_succ, same, ih]
  exact funext fun s => congrFun (within (s + 1)) s

theorem nearest_congr {u : ScopeTree} (same : u.parent? = t.parent?) {p q : ScopeId → Bool}
    (holds : p = q) : u.nearest p = t.nearest q := by
  funext s
  rw [nearest, nearest, ancestors_congr same, holds]

/-- More steps than the place of the scope make no difference. -/
theorem ancestorsWithin_eq_ancestors (ordered : t.Ordered) {steps s : Nat} (enough : s < steps) :
    t.ancestorsWithin steps s = t.ancestors s := by
  induction s using Nat.strongRecOn generalizing steps with
  | ind s ih =>
    obtain ⟨steps, rfl⟩ : ∃ k, steps = k + 1 := ⟨steps - 1, by omega⟩
    rw [ancestors, ancestorsWithin_succ, ancestorsWithin_succ]
    cases h : t.parent? s with
    | none => rfl
    | some p =>
      have before := ordered s p h
      have within := Nat.lt_of_lt_of_le before (Nat.le_of_lt_succ enough)
      have left := ih p before within
      have right := ih p before before
      simp [left, right]

theorem ancestors_of_parent (ordered : t.Ordered) {s p : ScopeId} (h : t.parent? s = some p) :
    t.ancestors s = s :: t.ancestors p := by
  have same := ancestorsWithin_eq_ancestors ordered (ordered s p h)
  rw [ancestors, ancestorsWithin_succ, h]
  simp [same]

theorem ancestors_of_root {s : ScopeId} (h : t.parent? s = none) : t.ancestors s = [s] := by
  rw [ancestors, ancestorsWithin_succ, h]
  rfl

theorem self_mem_ancestors (t : ScopeTree) (s : ScopeId) : s ∈ t.ancestors s := by
  rw [ancestors, ancestorsWithin_succ]
  simp

theorem ancestry_induction (ordered : t.Ordered) {motive : ScopeId → Prop}
    (root : ∀ s, t.parent? s = none → motive s)
    (step : ∀ s p, t.parent? s = some p → motive p → motive s) (s : ScopeId) :
    motive s := by
  induction s using Nat.strongRecOn with
  | ind s ih =>
    cases h : t.parent? s with
    | none => exact root s h
    | some p => exact step s p h (ih p (ordered s p h))

/-- What lies around an ancestor is the rest of the walk. -/
theorem ancestors_suffix (ordered : t.Ordered) {s r : ScopeId} (h : r ∈ t.ancestors s) :
    t.ancestors r <:+ t.ancestors s := by
  induction s using ancestry_induction ordered with
  | root s none =>
    rw [ancestors_of_root none, List.mem_singleton] at h
    subst h
    exact List.suffix_refl _
  | step s p some ih =>
    rw [ancestors_of_parent ordered some, List.mem_cons] at h
    rcases h with rfl | h
    · exact List.suffix_refl _
    · rw [ancestors_of_parent ordered some]
      exact (ih h).trans (List.suffix_cons s _)

theorem mem_ancestors_trans (ordered : t.Ordered) {s r q : ScopeId}
    (hr : r ∈ t.ancestors s) (hq : q ∈ t.ancestors r) : q ∈ t.ancestors s :=
  (ancestors_suffix ordered hr).subset hq

/-! ## Open environments -/

theorem environments_of_parent (ordered : t.Ordered) {s p : ScopeId} (h : t.parent? s = some p) :
    t.environments s =
      if t.isLexical s && t.needsEnv s then s :: t.environments p else t.environments p := by
  rw [environments, ancestors_of_parent ordered h, List.filter_cons]
  rfl

theorem environments_of_block (ordered : t.Ordered) {s p : ScopeId} (h : t.parent? s = some p)
    (block : t.isLexical s = false) : t.environments s = t.environments p := by
  rw [environments_of_parent ordered h, block]
  rfl

theorem getElem?_filter_countP_takeWhile
    {α : Type} [DecidableEq α] {q : α → Bool} {x : α} {l : List α}
    (mem : x ∈ l) (holds : q x = true) :
    (l.filter q)[(l.takeWhile (· ≠ x)).countP q]? = some x := by
  induction l with
  | nil => simp at mem
  | cons y l ih =>
    by_cases same : y = x
    · subst same
      simp [holds]
    · have rest := ih (by simpa [Ne.symm same] using mem)
      rw [List.takeWhile_cons_of_pos (by simpa using same)]
      by_cases hy : q y = true
      · rw [List.filter_cons_of_pos hy, List.countP_cons_of_pos hy]
        simpa using rest
      · rw [List.filter_cons_of_neg hy, List.countP_cons_of_neg hy]
        exact rest

theorem environments_level {s : ScopeId} {v : VariableId} (visible : t.slotOwner v ∈ t.ancestors s)
    (lexical : t.isLexical (t.slotOwner v) = true)
    (needed : t.needsEnv (t.slotOwner v) = true) :
    (t.environments s)[t.level s v]? = some (t.slotOwner v) := by
  apply getElem?_filter_countP_takeWhile visible
  simp [lexical, needed]

end AccScript.ScopeTree
