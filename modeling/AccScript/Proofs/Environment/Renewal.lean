import AccScript.Proofs.Code.Rows

/-!
# The next iteration of a loop

A `for` loop whose variables are captured goes on in a new environment.  `renewIteration` makes its
code, which is run here on a machine with a chain of environments.  Environments stay where they were
made, because closures hold them; the new one takes the place of the innermost in the chain.

`renews_iteration` says that the new environment has the values of the old one, and that nothing else
changes.  It has all the values: a variable of the body is no hole again, see `keeps_bodyVariable`.
-/

namespace AccScript

open Asm Lower

/-- The part of a machine that keeps values. -/
structure Machine (V : Type) where
  accumulator : V
  registers : Register → V
  /-- All environments that were made, each with the values of its slots. -/
  environments : List (List V)
  /-- The places of the open environments, the innermost first. -/
  chain : List Nat

variable {V : Type}

namespace Machine

/-- Runs an instruction that moves values.  A new environment has holes in its slots. -/
def step (hole : V) (m : Machine V) : Instruction → Option (Machine V)
  | .lda r => some { m with accumulator := m.registers r }
  | .sta r => some { m with registers := fun q => if q = r then m.accumulator else m.registers q }
  | .newLexEnv slots | .newLexEnvWithName slots _ => some { m with
      environments := m.environments ++ [List.replicate slots hole]
      chain := m.environments.length :: m.chain }
  | .popLexEnv => m.chain.head?.map fun _ => { m with chain := m.chain.tail }
  | .ldLexVar level slot => do
      let values ← m.environments[← m.chain[level]?]?
      return { m with accumulator := ← values[slot]? }
  | .stLexVar level slot => do
      let place ← m.chain[level]?
      let values ← m.environments[place]?
      guard (slot < values.length)
      return { m with environments := m.environments.set place (values.set slot m.accumulator) }
  | _ => none

def run (hole : V) (m : Machine V) (part : List Instruction) : Option (Machine V) :=
  part.foldlM (step hole) m

theorem run_append {hole : V} {m m' : Machine V} {part : List Instruction}
    (run : m.run hole part = some m') (part' : List Instruction) :
    m.run hole (part ++ part') = m'.run hole part' := by
  rw [Machine.run, List.foldlM_append]
  exact congrArg (· >>= _) run

end Machine

namespace Assembler.Allocates

variable {a : Assembler} {temps : List Register}

theorem follows_slotTemps (h : a.Allocates temps) (slots : List String) :
    ∃ taken b, slotTemps slots a = .ok (taken, b) ∧ a.Follows b [] (taken.reverse ++ temps) ∧
      taken.length = slots.length := by
  induction slots generalizing a temps with
  | nil => exact ⟨[], a, rfl, .refl h, rfl⟩
  | cons slot rest ih =>
    obtain ⟨t, b, first, follows⟩ := h.follows_getTemp
    obtain ⟨taken, c, others, follows', length⟩ := ih follows.allocates
    refine ⟨t :: taken, c, ?_, ?_, congrArg (· + 1) length⟩
    · rw [slotTemps, run_bind_of_ok first, run_bind_of_ok others]
      rfl
    · rw [List.reverse_cons, List.append_assoc]
      exact follows.trans follows'

theorem follows_saveSlots (h : a.Allocates temps) (env : Env) (slot : Nat)
    {registers : List Register} (distinct : registers.Nodup) :
    ∃ b part, saveSlots slot registers env a = .ok ((), b) ∧ a.Follows b part temps ∧
      ∀ (V : Type) (hole acc : V) content environments place outer (before values : List V),
        environments[place]? = some (before ++ values) → before.length = slot →
        values.length = registers.length →
        ∃ acc' saved, Machine.run hole ⟨acc, content, environments, place :: outer⟩ part =
            some ⟨acc', saved, environments, place :: outer⟩ ∧
          registers.map saved = values ∧ ∀ r ∉ registers, saved r = content r := by
  induction registers generalizing a slot with
  | nil =>
    refine ⟨a, [], rfl, .refl h, ?_⟩
    intro V hole acc content _ _ _ _ values _ _ length
    exact ⟨acc, content, rfl, (List.eq_nil_of_length_eq_zero length).symm, fun _ _ => rfl⟩
  | cons r rest ih =>
    obtain ⟨new, distinct⟩ := List.nodup_cons.mp distinct
    obtain ⟨b, loaded, load⟩ := h.follows_emitAt env .iteration (.ldLexVar 0 slot)
    obtain ⟨c, stored, store⟩ := load.allocates.follows_emit (.sta r)
    obtain ⟨d, part, others, follows, runs⟩ := ih store.allocates (slot + 1) distinct
    refine ⟨d, _, ?_, load.trans (store.trans follows), ?_⟩
    · rw [saveSlots, Lower.run_bind_of_ok loaded, Lower.run_bind_of_ok (m := liftM (sta r)) stored,
        others]
    intro V hole acc content environments place outer before values found here length
    obtain ⟨v, values, rfl⟩ := List.exists_of_length_succ values length
    obtain ⟨acc', saved, later, same, others⟩ := runs V hole v
      (fun q => if q = r then v else content q) environments place outer (before ++ [v]) values
      (by simpa using found) (by simp [here]) (Nat.succ.inj length)
    refine ⟨acc', saved, ?_, ?_, fun q mem => ?_⟩
    · have first : Machine.run hole ⟨acc, content, environments, place :: outer⟩
          [.ldLexVar 0 slot, .sta r] =
          some ⟨v, fun q => if q = r then v else content q, environments, place :: outer⟩ := by
        simp [Machine.run, Machine.step, found, ← here]
      exact (Machine.run_append first part).trans later
    · rw [List.map_cons, same, others r new, if_pos rfl]
    · rw [List.mem_cons, not_or] at mem
      rw [others q mem.2, if_neg mem.1]

/-- The last environment gets the values of registers, behind those that it has. -/
theorem follows_restoreSlots (h : a.Allocates temps) (env : Env) (slot : Nat)
    (registers : List Register) :
    ∃ b part, restoreSlots slot registers env a = .ok ((), b) ∧ a.Follows b part temps ∧
      ∀ (V : Type) (hole acc : V) content made outer before, before.length = slot →
        ∃ acc', Machine.run hole ⟨acc, content,
            made ++ [before ++ List.replicate registers.length hole], made.length :: outer⟩ part =
          some ⟨acc', content, made ++ [before ++ registers.map content], made.length :: outer⟩ := by
  induction registers generalizing a slot with
  | nil =>
    refine ⟨a, [], rfl, .refl h, ?_⟩
    exact fun V hole acc content made outer before _ => ⟨acc, rfl⟩
  | cons r rest ih =>
    obtain ⟨b, loaded, load⟩ := h.follows_emit (.lda r)
    obtain ⟨c, stored, store⟩ := load.allocates.follows_emitAt env .iteration (.stLexVar 0 slot)
    obtain ⟨d, part, others, follows, runs⟩ := ih store.allocates (slot + 1)
    refine ⟨d, _, ?_, load.trans (store.trans follows), ?_⟩
    · rw [restoreSlots, Lower.run_bind_of_ok (m := liftM (lda r)) loaded,
        Lower.run_bind_of_ok stored, others]
    intro V hole acc content made outer before here
    obtain ⟨acc', later⟩ := runs V hole (content r) content made outer (before ++ [content r])
      (by simp [here])
    refine ⟨acc', ?_⟩
    have first : Machine.run hole ⟨acc, content,
          made ++ [before ++ List.replicate (rest.length + 1) hole], made.length :: outer⟩
          [.lda r, .stLexVar 0 slot] =
        some ⟨content r, content, made ++ [(before ++ [content r]) ++
          List.replicate rest.length hole], made.length :: outer⟩ := by
      simp [Machine.run, Machine.step, guard, List.replicate_succ, ← here]
    rw [List.map_cons, List.append_cons before]
    exact (Machine.run_append first part).trans later

theorem follows_enterEnvironment (h : a.Allocates temps) (env : Env) (scope : ScopeId)
    (slots : List String) : ∃ i b, enterEnvironment scope slots env a = .ok ((), b) ∧
      a.Follows b [i] temps ∧
      (i = .newLexEnv slots.length ∨ ∃ info, i = .newLexEnvWithName slots.length info) := by
  have made : ∃ i b, environmentInstruction slots a = .ok (i, b) ∧ a.Follows b [] temps ∧
      (i = .newLexEnv slots.length ∨ ∃ info, i = .newLexEnvWithName slots.length info) := by
    have same : environmentInstruction slots a =
        (if a.debugMode && !slots.isEmpty then (do
          return .newLexEnvWithName slots.length (← addLiteral (.scopeInfo slots)))
        else return .newLexEnv slots.length : Asm Instruction) a := rfl
    rw [same]
    split
    · refine ⟨_, _, rfl, ⟨?_, rfl, List.prefix_refl _, h.congr rfl rfl rfl⟩, .inr ⟨_, rfl⟩⟩
      exact (List.append_nil _).symm
    · exact ⟨_, _, rfl, .refl h, .inl rfl⟩
  obtain ⟨i, b, chosen, follows, kind⟩ := made
  obtain ⟨c, emitted, emits⟩ := follows.allocates.follows_emitAt env (.environment scope) i
  exact ⟨i, c, (run_bind_of_ok chosen).trans emitted, follows.trans emits, kind⟩

end Assembler.Allocates

/-- The next iteration runs in a new environment with the values of the one before, whichever
variables they belong to.  No environment that was made before changes, nor does any temporary or
variable that is in a register. -/
theorem renews_iteration {a : Assembler} {temps : List Register} (h : a.Allocates temps) (env : Env)
    (scope : ScopeId) (slots : List String) :
    ∃ b part, renewIteration scope (some slots) env a = .ok ((), b) ∧ a.Follows b part temps ∧
      ∀ (V : Type) (hole : V) (m : Machine V) (place : Nat) (outer : List Nat) (values : List V),
        m.chain = place :: outer → m.environments[place]? = some values →
        values.length = slots.length →
        ∃ m', m.run hole part = some m' ∧ m'.chain = m.environments.length :: outer ∧
          m'.environments = m.environments ++ [values] ∧
          (∀ r ∈ temps, m'.registers r = m.registers r) ∧
          ∀ v r, a.locals.get? v = some r → m'.registers r = m.registers r := by
  obtain ⟨taken, b, took, take, length⟩ := h.follows_slotTemps slots
  have unique := take.allocates.nodup
  rw [List.nodup_append, List.nodup_reverse] at unique
  obtain ⟨c, _, saved, save, saving⟩ := take.allocates.follows_saveSlots env 0 unique.1
  obtain ⟨d, popped, pop⟩ := save.allocates.follows_emit .popLexEnv
  obtain ⟨i, e, entered, enter, kind⟩ := pop.allocates.follows_enterEnvironment env scope slots
  obtain ⟨f, _, restored, restore, restoring⟩ :=
    enter.allocates.follows_restoreSlots env 0 taken
  obtain ⟨g, freed, free⟩ := Assembler.Allocates.follows_freeTemps taken
    (restore.allocates.perm (taken.reverse_perm.append_right temps))
  have follows := take.trans (save.trans ((pop.trans enter).trans (restore.trans free)))
  rw [List.append_nil, List.nil_append] at follows
  refine ⟨g, _, ?_, follows, ?_⟩
  · rw [renewIteration, Lower.run_bind_of_ok (m := liftM (slotTemps slots)) took,
      Lower.run_bind_of_ok saved, Lower.run_bind_of_ok (m := liftM popEnvironment) popped,
      Lower.run_bind_of_ok entered, Lower.run_bind_of_ok restored]
    exact freed
  rintro V hole ⟨acc, content, environments, chain⟩ place outer values rfl found same
  obtain ⟨acc', kept, saves, holds, others⟩ := saving V hole acc content environments place outer
    [] values found rfl (same.trans length.symm)
  obtain ⟨acc'', restores⟩ := restoring V hole acc' kept environments outer [] rfl
  have renews : Machine.run hole ⟨acc', kept, environments, place :: outer⟩ [.popLexEnv, i] =
      some ⟨acc', kept, environments ++ [[] ++ List.replicate taken.length hole],
        environments.length :: outer⟩ := by
    rw [length]
    rcases kind with rfl | ⟨info, rfl⟩ <;> rfl
  refine ⟨⟨acc'', kept, environments ++ [values], environments.length :: outer⟩, ?_, rfl, rfl,
    fun r mem => others r fun own => ?_, fun v r bound => others r fun own => ?_⟩
  · rw [← holds]
    exact (Machine.run_append saves _).trans ((Machine.run_append renews _).trans restores)
  · exact unique.2.2 r (List.mem_reverse.mpr own) r mem rfl
  · refine take.allocates.local_not_mem (v := v) (by rwa [take.locals]) ?_
    exact List.mem_append_left _ (List.mem_reverse.mpr own)

/-- `for (let i; () => i;) { let b; () => b; }` -/
def Program.lasting : Program :=
  let fresh (name : String) (id : NodeId) : Declaration :=
    ⟨.let, [⟨⟨1, 0⟩, .identifier ⟨name, id⟩, none⟩]⟩
  let arrow (id : NodeId) (name : String) : Expr := ⟨⟨1, 0⟩, .function ⟨id, ⟨1, 0⟩, none, .arrow, false,
    [], .expression ⟨⟨1, 0⟩, .identifier name⟩, false⟩⟩
  let body : Block := ⟨1, [⟨2, ⟨1, 0⟩, .variableDecl (fresh "b" 3) false⟩,
    ⟨4, ⟨1, 0⟩, .expression (arrow 5 "b")⟩]⟩
  let loop : StatementKind := .for (some (.declaration (fresh "i" 6))) (some (arrow 7 "i")) none
    ⟨8, ⟨1, 0⟩, .block body⟩
  { id := 0, position := ⟨1, 0⟩, statements := [⟨9, ⟨1, 0⟩, loop⟩], isStrict := false
    nextNodeId := 10, derivedFrom := [] }

/-- Of two environments the inner one is renewed. -/
theorem renews_iteration_lasting :
    ∃ c result, CompileContext.ofProgram .lasting {} (fun _ => none) = .ok c ∧ c.run = .ok result ∧
      Assembler.Allocates {} [] ∧ ∃ b part,
        renewIteration 1 (some ["i", "b"]) (c.env .program ScopeTree.rootId) {} = .ok ((), b) ∧
        ∃ m', Machine.run 0 ⟨0, fun _ => 0, [[3], [1, 2]], [1, 0]⟩ part = some m' ∧
          m'.chain = [2, 0] ∧ m'.environments = [[3], [1, 2], [1, 2]] := by
  have units : ((CompileContext.ofProgram .lasting {} (fun _ => none)).bind fun c =>
      c.run.map fun result => result.units.length).toOption = some 3 := by
    decide +kernel
  obtain ⟨c, result, analyzed, compiled, -⟩ := exists_of_compiled units
  have empty : Assembler.Allocates {} [] := ⟨.refl _, rfl, ⟨List.nodup_nil, nofun⟩, nofun⟩
  obtain ⟨b, part, run, -, renews⟩ :=
    renews_iteration empty (c.env .program ScopeTree.rootId) 1 ["i", "b"]
  obtain ⟨m', ran, chain, environments, -⟩ :=
    renews Nat 0 ⟨0, fun _ => 0, [[3], [1, 2]], [1, 0]⟩ 1 [0] [1, 2] rfl rfl rfl
  exact ⟨c, result, analyzed, compiled, empty, b, part, run, m', ran, chain, environments⟩

/-- Runs a part of a unit and shows what has become of the environments. -/
def CompiledUnit.environmentsAfter (u : CompiledUnit) (start count : Nat) (m : Machine Nat) :
    Option (List Nat × List (List Nat)) :=
  (m.run 0 (((u.code.drop start).take count).map Emitted.instruction)).map fun m =>
    (m.chain, m.environments)

/-- The variable of the body is in the second slot, and the next iteration finds its value there. -/
theorem keeps_bodyVariable :
    ∃ c result, CompileContext.ofProgram .lasting {} (fun _ => none) = .ok c ∧ c.run = .ok result ∧
      (c.survey.tree.var? 7).map (fun data => (data.name, data.slot)) = some ("b", some 1) ∧
      ∃ u ∈ result.units, u.environmentsAfter 11 10 ⟨0, fun _ => 0, [[1, 2]], [0]⟩ =
        some ([1], [[1, 2], [1, 2]]) := by
  have keeps : ((CompileContext.ofProgram .lasting {} (fun _ => none)).bind fun c =>
      c.run.map fun result => decide (
        (c.survey.tree.var? 7).map (fun data => (data.name, data.slot)) = some ("b", some 1) ∧
        ∃ u ∈ result.units, u.environmentsAfter 11 10 ⟨0, fun _ => 0, [[1, 2]], [0]⟩ =
          some ([1], [[1, 2], [1, 2]]))).toOption = some true := by
    decide +kernel
  obtain ⟨c, result, analyzed, compiled, kept⟩ := exists_of_compiled keeps
  exact ⟨c, result, analyzed, compiled, of_decide_eq_true kept⟩

end AccScript
