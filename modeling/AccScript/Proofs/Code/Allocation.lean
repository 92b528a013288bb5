import AccScript.Proofs.Lowering.Program

/-!
# The allocation of registers

Registers are handed out to parameters and variables for good, and to temporaries for a while.  The
assembler counts live temporaries, but a count does not show that one register has two owners.
`allocation_sound` says that this never happens, at no moment of any unit, and that every piece of
code gives back what it takes; so no compilation ever fails over its registers.
-/

namespace AccScript

open Asm Lower

variable {a : Assembler}

/-- What code leaves of the registers that were there before it: the same temporaries are live, no
register has come to have two owners, and no live temporary was written. -/
structure Assembler.KeepsTemporaries (a b : Assembler) : Prop where
  live : b.live.Perm a.live
  sound : ∀ s ∈ b.registers :: b.moments, s.Sound
  writes : ∀ (k : Nat) (e : Emitted), a.code.size ≤ k → b.code[k]? = some e →
    ∀ r ∈ e.instruction.written, r ∉ a.live

/-- Code that may stand behind `super(...)`: the fields of a class, or nothing where `super(...)`
itself has no place. -/
inductive InitializesFields : Code → Prop
  | fields (owner : Option ClassNode) (env : Env) : InitializesFields (fieldInitOf owner env)
  | nowhere : InitializesFields (throw .unmet)

theorem InitializesFields.neutral {code : Code} (h : InitializesFields code) : Neutral code := by
  cases h with
  | fields owner env => exact neutral_fieldInitOf owner
  | nowhere => exact fun _ _ => .throw Failure.not_blames_unmet

/-- Registers can be followed from any moment on. -/
theorem sound_unwatched (allocates : a.Allocates a.live) :
    Sound { watched := False, kept := a.live }
      { boundaries := a.boundaries, breakables := a.breakables, continuables := a.continuables } a :=
  ⟨rfl, rfl, rfl, allocates, False.elim⟩

theorem Neutral.keepsTemporaries {α : Type} {m : Asm α} (h : Neutral m)
    (allocates : a.Allocates a.live) : Ends m a fun _ b => a.KeepsTemporaries b := by
  refine ((h _ _).ends a (sound_unwatched allocates)).imp fun _ b _ post => ?_
  exact ⟨post.1.allocates.live, List.forall_mem_cons.mpr ⟨post.1.allocates.present,
    post.1.allocates.past⟩, post.2.writes⟩

theorem Statement.lower_keeps_live {env : Env} {σ : Stage} (suits : Suits False env σ)
    (sound : Sound { watched := False } σ a) (s : Statement) :
    Ends (s.lower env) a fun _ b => b.live.Perm a.live := by
  refine ((s.lower_settles env _ σ suits).ends a sound).imp fun _ b _ post => ?_
  exact post.1.allocates.live.trans sound.allocates.live.symm

variable {c : CompileContext} {source : UnitSource} {before a : Assembler} {u : CompiledUnit}

namespace CompileContext.Builds

theorem moments_sound (h : c.Builds source before a u) : ∀ s ∈ a.registers :: a.moments, s.Sound :=
  List.forall_mem_cons.mpr ⟨h.sound.allocates.present, h.sound.allocates.past⟩

theorem operand_lt (h : c.Builds source before a u) {e : Emitted} (mem : e ∈ u.code) {r : Register}
    (used : r ∈ e.instruction.registers) : r.index < u.registerCount := by
  obtain ⟨k, found⟩ := List.getElem?_of_mem mem
  obtain ⟨e', emitted, instruction, -⟩ := h.emitted found
  rw [h.parts.2.2]
  exact h.watched.operands k e' emitted r (instruction ▸ used)

end CompileContext.Builds

/-- The allocation of registers is sound: no compilation fails over its registers, no register of a
unit ever has two owners, all operands are within the registers of the unit, and expressions and
statements give back what they take; an expression writes no temporary that is live around it. -/
theorem allocation_sound (c : CompileContext) :
    (∀ failure, c.run = .error failure → ¬failure.BlamesRegisters) ∧
    (∀ result, c.run = .ok result → ∀ u ∈ result.units, ∃ source before a,
      c.Builds source before a u ∧ (∀ s ∈ a.registers :: a.moments, s.Sound) ∧
        ∀ e ∈ u.code, ∀ r ∈ e.instruction.registers, r.index < u.registerCount) ∧
    (∀ (e : Expr) (env : Env) (a : Assembler), InitializesFields env.fieldInit →
      a.Allocates a.live → Ends (e.lower env) a fun _ b => a.KeepsTemporaries b) ∧
    ∀ (s : Statement) (env : Env) (σ : Stage) (a : Assembler), Suits False env σ →
      Sound { watched := False } σ a → Ends (s.lower env) a fun _ b => b.live.Perm a.live := by
  refine ⟨fun failure failed => ?_, fun result compiled u mem => ?_, fun e env a fields allocates => ?_,
    fun s env σ a suits sound => s.lower_keeps_live suits sound⟩
  · have outcome := c.run_builds
    rw [failed] at outcome
    exact fun blames => outcome (.registers blames)
  · obtain ⟨source, before, a, built⟩ := CompileContext.builds_of_run compiled mem
    exact ⟨source, before, a, built, built.moments_sound, fun e mem r => built.operand_lt mem⟩
  · exact (e.lower_neutral fields.neutral).keepsTemporaries allocates

theorem Assembler.Allocates.empty : Assembler.Allocates {} [] :=
  ⟨.refl _, rfl, ⟨List.nodup_nil, nofun⟩, nofun⟩

theorem CompileContext.initializesFields (c : CompileContext) :
    InitializesFields (c.env .program ScopeTree.rootId).fieldInit := by
  simp only [CompileContext.env]
  exact .fields _ _

/-- The five units of the example, and what stands at the top of its program. -/
theorem allocation_collector :
    ∃ c result, CompileContext.ofProgram .collector {} (fun _ => none) = .ok c ∧
      c.run = .ok result ∧ result.units.length = 5 ∧
      (∀ u ∈ result.units, ∃ source before a, c.Builds source before a u ∧
        (∀ s ∈ a.registers :: a.moments, s.Sound) ∧
          ∀ e ∈ u.code, ∀ r ∈ e.instruction.registers, r.index < u.registerCount) ∧
      (∀ e : Expr, Ends (e.lower (c.env .program ScopeTree.rootId)) {} fun _ b =>
        Assembler.KeepsTemporaries {} b) ∧
      ∀ s : Statement, Ends (s.lower (c.env .program ScopeTree.rootId)) {} fun _ b =>
        b.live.Perm [] := by
  obtain ⟨c, result, analyzed, compiled, count⟩ := collector_compiles
  obtain ⟨-, units, expressions, statements⟩ := allocation_sound c
  exact ⟨c, result, analyzed, compiled, count, units result compiled,
    fun e => expressions e _ {} c.initializesFields .empty,
    fun s => statements s _ {} {} (suits_env _ False) (sound_unwatched .empty)⟩

end AccScript
