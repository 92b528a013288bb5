import AccScript.Proofs.Lowering.Program

/-!
# The state of control

Statements change the state of control for their parts: they push boundaries and jump targets, open
scopes of the variable table and protected ranges, and resolve names from scopes of their own.  Each
lowered statement is noted with the states before and after it.  `control_restored` says that the two
are always the same, also where a finalizer has been run outside of the boundaries that a jump leaves;
so the boundary that is left is the innermost one, whatever program is compiled.
-/

namespace AccScript

open Asm Lower

variable {G : Guard} {σ : Stage} {env : Env} {a b : Assembler}

theorem mem_visits_of_visiting {code : Lower Unit} (run : (visiting code env).run a = .ok ((), b)) :
    ⟨a.control env.scope, b.control env.scope⟩ ∈ b.visits := by
  have unfolded : (code env >>= fun _ => noteVisit (a.control env.scope) env.scope).run a =
      .ok ((), b) := run
  rw [StateT.run_bind] at unfolded
  cases inner : (code env).run a with
  | error failure =>
    rw [inner] at unfolded
    cases unfolded
  | ok result =>
    rw [inner] at unfolded
    cases unfolded
    exact Array.mem_push_self

theorem Statement.mem_visits (s : Statement) (run : (s.lower env).run a = .ok ((), b)) :
    ⟨a.control env.scope, b.control env.scope⟩ ∈ b.visits := by
  obtain ⟨id, position, kind⟩ := s
  exact mem_visits_of_visiting run

theorem Statement.lower_restores
    (s : Statement) (watched : G.watched) (suits : Suits G.watched env σ) (sound : Sound G σ a) :
    Ends (s.lower env) a fun _ b => b.control env.scope = a.control env.scope ∧
      ∀ v ∈ a.visits, v ∈ b.visits :=
  ((s.lower_settles env G σ suits).ends a sound).imp fun _ _ _ post =>
    ⟨sound.control_eq post.1 post.2 watched env.scope, post.2.visits⟩

theorem outside_restores (watched : G.watched) (suits : Suits G.watched env σ) (sound : Sound G σ a)
    {left rest : List Boundary} {i : Nat} (split : a.boundaries = left ++ .finalizer i :: rest)
    {code : Code} (found : env.finalizers[i]? = some code) :
    Ends (outside (left ++ [.finalizer i]) rest code) a fun _ b =>
      b.control env.scope = a.control env.scope := by
  rw [sound.boundaries] at split
  have suffix : .finalizer i :: rest <:+ σ.boundaries := split ▸ List.suffix_append left _
  obtain ⟨code', found', runs⟩ := suits.serves i rest suffix
  cases found.symm.trans found'
  have split' : σ.boundaries = (left ++ [.finalizer i]) ++ rest := by simp [split]
  have flows := runs G { σ with boundaries := rest } id rfl (List.Subset.refl _)
    (List.Subset.refl _) suits.known
  exact (ends_outside sound split' flows).imp fun _ _ _ post =>
    sound.control_eq post.1 post.2.1 watched env.scope

/-- Control is restored: no compilation leaves a boundary that is not the innermost one, every
statement of every unit that is compiled has left the state of control as it found it, and so does
every statement and every inlined finalizer from any state that suits it, whatever comes after. -/
theorem control_restored (c : CompileContext) :
    (∀ failure, c.run = .error failure → failure ≠ @Failure.broken .boundary) ∧
    (∀ result, c.run = .ok result → ∀ u ∈ result.units, ∃ source before a,
      c.Builds source before a u ∧ ∀ v ∈ a.visits, v.Restores) ∧
    (∀ (s : Statement) (env : Env) (a b : Assembler), (s.lower env).run a = .ok ((), b) →
      ⟨a.control env.scope, b.control env.scope⟩ ∈ b.visits) ∧
    (∀ (s : Statement) (env : Env) (G : Guard) (σ : Stage) (a : Assembler), G.watched →
      Suits G.watched env σ → Sound G σ a → Ends (s.lower env) a fun _ b =>
        b.control env.scope = a.control env.scope ∧ ∀ v ∈ a.visits, v ∈ b.visits) ∧
    ∀ (env : Env) (G : Guard) (σ : Stage) (a : Assembler) (left rest : List Boundary) (i : Nat)
      (code : Code), G.watched → Suits G.watched env σ → Sound G σ a →
      a.boundaries = left ++ .finalizer i :: rest → env.finalizers[i]? = some code →
      Ends (outside (left ++ [.finalizer i]) rest code) a fun _ b =>
        b.control env.scope = a.control env.scope := by
  refine ⟨fun failure failed => ?_, fun result compiled u mem => ?_, fun s env a b => s.mem_visits,
    fun s env G σ a watched suits sound => s.lower_restores watched suits sound,
    fun env G σ a left rest i code watched suits sound split found =>
      outside_restores watched suits sound split found⟩
  · have outcome := c.run_builds
    rw [failed] at outcome
    rintro rfl
    exact outcome .boundary
  · obtain ⟨source, before, a, built⟩ := CompileContext.builds_of_run compiled mem
    exact ⟨source, before, a, built, built.watched.visits⟩

/-- The five units of the example, and any statement at the top of its program. -/
theorem control_restored_collector :
    ∃ c result, CompileContext.ofProgram .collector {} (fun _ => none) = .ok c ∧
      c.run = .ok result ∧ result.units.length = 5 ∧
      (∀ u ∈ result.units, ∃ source before a, c.Builds source before a u ∧
        ∀ v ∈ a.visits, v.Restores) ∧
      ∀ s : Statement, Ends (s.lower (c.env .program ScopeTree.rootId)) (Assembler.nextUnit {})
        fun _ b => b.control ScopeTree.rootId = (Assembler.nextUnit {}).control ScopeTree.rootId := by
  obtain ⟨c, result, analyzed, compiled, count⟩ := collector_compiles
  obtain ⟨-, units, -, statements, -⟩ := control_restored c
  refine ⟨c, result, analyzed, compiled, count, units result compiled, fun s => ?_⟩
  have restored := statements s (c.env .program ScopeTree.rootId) (.ofUnit {}) {} _ trivial
    (suits_env _ True) (sound_nextUnit {})
  exact restored.imp fun _ _ _ post => post.1

end AccScript
