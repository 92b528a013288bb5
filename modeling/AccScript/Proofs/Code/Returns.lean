import AccScript.Proofs.Code.Keys

/-!
# Returns

A `return` leaves everything around it.  The code between its value and the instruction pops the
environments of loops and copies the finalizers of protected ranges, the innermost first; a copy is
compiled in the scope of the statement that it finalizes.  Copies may use the accumulator, so the
value waits in a register that they do not write: however control runs through the copies, if it
comes to the instruction, the accumulator holds the value again.
-/

namespace AccScript

open Asm Lower

variable {α : Type}

/-! ## The accumulator and the registers -/

/-- The values that instructions pass on. -/
structure Values (α : Type) where
  accumulator : α
  registers : Register → α

/-- What an instruction can do to the values: registers are written by moves and stores only, and
jumps that test nothing keep the accumulator. -/
def Instruction.Turns (i : Instruction) (s s' : Values α) : Prop :=
  match i with
  | .lda r => s' = { s with accumulator := s.registers r }
  | .sta r => s' = { s with registers := Function.update s.registers r s.accumulator }
  | .mov dst src => s' = { s with registers := Function.update s.registers dst (s.registers src) }
  | .label _ | .popLexEnv | .jmp _ => s' = s
  | _ => s'.registers = s.registers

theorem Instruction.Turns.register_eq
    {i : Instruction} {s s' : Values α} (h : i.Turns s s') {r : Register} (spared : r ∉ i.written) :
    s'.registers r = s.registers r := by
  cases i with
  | sta dst =>
    have other : r ≠ dst := by simpa [written] using spared
    rw [show s' = _ from h]
    exact Function.update_of_ne other _ _
  | mov dst src =>
    have other : r ≠ dst := by simpa [written] using spared
    rw [show s' = _ from h]
    exact Function.update_of_ne other _ _
  | lda src => rw [show s' = _ from h]
  | label l | popLexEnv | jmp l => rw [show s' = s from h]
  | _ => exact congrFun h r

/-- A run that stays at places from `first` on and in front of `last`, until it may reach that. -/
inductive RunsWithin (code : Array Emitted) (first last : Nat) :
    Nat → Values α → Nat → Values α → Prop
  | done (k : Nat) (s : Values α) : RunsWithin code first last k s k s
  | step {k k' k'' : Nat} {s s' s'' : Values α} {e : Emitted} :
      first ≤ k → k < last → code[k]? = some e → e.instruction.Turns s s' →
      (e.instruction.isTerminator = false ∧ k' = k + 1 ∨
        ∃ l, e.instruction.target? = some l ∧ LabelAt code l k') →
      RunsWithin code first last k' s' k'' s'' → RunsWithin code first last k s k'' s''

section Value

variable {code : Array Emitted} {copies : Array FinalizerCopy} {first last start stop k : Nat}
  {es : List Enclosure} {s s' : Values α} {v : Register}

theorem Leaves.pops (h : Leaves code copies k es stop)
    (unguarded : ∀ region kind scope, .guarded region kind scope ∉ es) {i : Nat} (after : k ≤ i)
    (before : i < stop) : ∃ e, code[i]? = some e ∧ e.instruction = .popLexEnv := by
  induction h with
  | arrived k => omega
  | @pop k stop e outer loop found pops _ ih =>
    by_cases same : i = k
    · exact ⟨e, same ▸ found, pops⟩
    · refine ih (fun region kind scope mem => ?_) (by omega) before
      exact unguarded region kind scope (.tail _ mem)
  | copy => exact absurd (.head _) (unguarded _ _ _)
  | pass _ _ ih =>
    refine ih (fun region kind scope mem => ?_) after before
    exact unguarded region kind scope (.tail _ mem)

theorem RunsWithin.accumulator_of_pops
    (pops : ∀ i, first ≤ i → i < last → ∃ e, code[i]? = some e ∧ e.instruction = .popLexEnv)
    (h : RunsWithin code first last k s stop s') : s'.accumulator = s.accumulator := by
  induction h with
  | done => rfl
  | step after before found turns _ _ ih =>
    obtain ⟨e, found', pop⟩ := pops _ after before
    cases found.symm.trans found'
    rw [pop] at turns
    exact ih.trans (congrArg _ turns)

theorem RunsWithin.accumulator_of_spares
    (spares : Spares code v start stop) (unlabelled : ∀ l, ¬LabelAt code l (stop + 1)) {x : α}
    (h : RunsWithin code start (stop + 1) k s last s') (ends : last = stop + 1) (inside : start < k)
    (kept : k ≤ stop → s.registers v = x) (loaded : k = stop + 1 → s.accumulator = x) :
    s'.accumulator = x := by
  induction h with
  | done => exact loaded ends
  | @step k k' _ s t _ e after before found turns goes rest ih =>
    -- The register is loaded at the last place but one; before that it is not written.
    by_cases early : k < stop
    · have same : t.registers v = x :=
        (turns.register_eq (spares.spared k e inside early found)).trans (kept (Nat.le_of_lt early))
      rcases goes with ⟨-, rfl⟩ | ⟨l, -, there⟩
      · exact ih ends (by omega) (fun _ => same) fun late => by omega
      · have notLast : k' ≠ stop + 1 := fun last => unlabelled l (last ▸ there)
        refine ih ends ?_ (fun _ => same) fun last => absurd last notLast
        -- The run goes on from the label, so it is no place in front of the store.
        obtain ⟨saved, stores, store⟩ := spares.saved
        have notFirst : k' ≠ start := by
          rintro rfl
          obtain ⟨e', found', label⟩ := there
          cases stores.symm.trans found'
          rw [store] at label
          cases label
        cases rest with
        | done => omega
        | step after' => omega
    · obtain rfl : k = stop := by omega
      obtain ⟨e', found', load⟩ := spares.restored
      cases found.symm.trans found'
      rw [load] at turns goes
      have next : k' = k + 1 := by
        rcases goes with ⟨-, next⟩ | ⟨l, target, -⟩
        · exact next
        · cases target
      refine ih ends (by omega) (fun early => by omega) fun _ => ?_
      rw [show t = _ from turns]
      exact kept (Nat.le_refl _)

theorem HandsOn.accumulator
    (h : HandsOn code copies first es last) (unlabelled : ∀ l, ¬LabelAt code l last)
    (run : RunsWithin code first last first s last s') : s'.accumulator = s.accumulator := by
  cases h with
  | direct unguarded leaves =>
    exact run.accumulator_of_pops fun i => leaves.pops unguarded
  | saved spares leaves =>
    obtain ⟨e, stores, store⟩ := spares.saved
    cases run with
    | done => rfl
    | @step _ next _ _ t _ e' after before found turns goes rest =>
      cases found.symm.trans stores
      rw [store] at turns goes
      obtain rfl : next = first + 1 := by
        rcases goes with ⟨-, next⟩ | ⟨l, target, -⟩
        · exact next
        · cases target
      refine rest.accumulator_of_spares spares unlabelled rfl (Nat.lt_succ_self first) ?_ ?_
      · rw [show t = _ from turns]
        exact fun _ => Function.update_self ..
      · rw [show t = _ from turns]
        exact fun _ => rfl

end Value

/-! ## The value of a `return` -/

end AccScript
