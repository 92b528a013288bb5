import AccScript.Proofs.Lowering.Program
import AccScript.Proofs.Survey.Unsurveyed
import Mathlib.Data.List.Basic

/-!
# The balance of environments

Code that pushes and pops environments can be given depths: to every place one number of
environments that the unit has pushed and not yet popped, on whichever path control came there.
Jumps, exception handlers, `return` and `throw` all rely on it.

The main result, `balanced_of_containsJumps`, finds such depths for every unit of a compiled
program, provided that no `break` or `continue` leaves the `finally` block in which it stands.
Nothing else is asked of the program.
-/

namespace AccScript

variable {i : Nat}

namespace CompiledUnit

/-- Depths for the places of a unit, whose code runs in `base` environments outside of loops. -/
structure Balanced (u : CompiledUnit) (base : Nat) (d : Nat → Nat) : Prop where
  start : d 0 = 0
  /-- Environments are pushed and popped one at a time, and only those that were pushed. -/
  moves : ∀ i (e : Emitted), u.code[i]? = some e → e.instruction.Moves (d i) (d (i + 1))
  jumps : ∀ i (e : Emitted) l j, u.code[i]? = some e → e.instruction.target? = some l →
    u.HasLabelAt l j → d i = d j
  handlers : ∀ table ∈ u.catchTables, ∃ start stop rest, table.ranges = (start, stop) :: rest ∧
    ∀ i j, u.HasLabelAt table.handler i → u.HasLabelAt start j → d i = d j
  returns : ∀ i (e : Emitted), u.code[i]? = some e →
    e.instruction = .return ∨ e.instruction = .returnUndefined → d i = base
  /-- A `throw` statement is at the depth of the innermost region around it. -/
  throws : ∀ i (e : Emitted) site, u.code[i]? = some e → e.instruction = .throw →
    e.site = some site → site.subject = .exception →
    match innermostRegion? site.boundaries with
    | some region => ∃ table start stop rest, u.catchTables[region]? = some table ∧
        table.ranges = (start, stop) :: rest ∧ ∀ j, u.HasLabelAt start j → d i = d j
    | none => d i = base

end CompiledUnit

/-! ## Depths of an assembler -/

variable {S : Setting} {u : CompiledUnit} {a : Assembler} {δ : Depths} {d : Nat → Nat}

theorem getElem?_of_content
    (same : u.code.map Emitted.content = a.code.toList.map Emitted.content) {e : Emitted}
    (found : u.code[i]? = some e) :
    ∃ e' : Emitted, a.code[i]? = some e' ∧ e'.instruction = e.instruction ∧ e'.site = e.site := by
  obtain ⟨e', emitted, instruction, site, -⟩ := Emitted.getElem?_of_map_content same found
  rw [Array.getElem?_toList] at emitted
  exact ⟨e', emitted, instruction, site⟩

theorem range_of_closed {region : TryRegion} (fits : RegionFits δ [] i region) :
    ∃ start stop rest, region.ranges = (start, stop) :: rest ∧
      ∃ k, δ.region i = some k ∧ δ.label region.handler = some k ∧ δ.label start = some k := by
  obtain ⟨k, start, depth, handler, begins, begin_depth⟩ := fits.depth
  cases ranges : region.ranges with
  | nil => exact absurd (fits.closed ranges) List.not_mem_nil
  | cons range rest =>
    obtain ⟨start', stop⟩ := range
    obtain rfl : start' = start := by
      simpa [TryRegion.begin?, ranges] using begins
    exact ⟨start', stop, rest, rfl, k, depth, handler, begin_depth⟩

section

variable (contained : S.discipline = .contained) (graded : S.Graded δ a.code d)
  (same : u.code.map Emitted.content = a.code.toList.map Emitted.content)

include contained graded same

theorem label_depth {l : Label} (placed : u.HasLabelAt l i) : δ.label l = some (d i) := by
  obtain ⟨e, found, label⟩ := placed
  obtain ⟨e', emitted, instruction, -⟩ := getElem?_of_content same found
  have fits := graded.fits i e' emitted contained
  rwa [instruction, label] at fits

theorem target_depth {e : Emitted} {l : Label} (found : u.code[i]? = some e)
    (target : e.instruction.target? = some l) : δ.label l = some (d i) := by
  obtain ⟨e', emitted, instruction, -⟩ := getElem?_of_content same found
  have fits := graded.fits i e' emitted contained
  rw [instruction] at fits
  unfold Instruction.target? at target
  split at target
  case h_1 jump | h_2 jump | h_3 jump =>
    cases target
    simpa only [jump] using fits
  case h_4 => cases target

end

theorem Setting.Assembles.balanced {source : UnitSource} {s : ScopeId} {before : Assembler}
    (assembled : S.Assembles u source s before a) (contained : S.discipline = .contained) :
    ∃ d, u.Balanced (S.inUnit s before).base d := by
  obtain ⟨δ, d, assigned⟩ := assembled.held.assigns
  have graded := assigned.graded
  obtain ⟨same, tables, -⟩ := assembled.built.parts
  have contained : (S.inUnit s before).discipline = .contained := contained
  have label_at := fun {l : Label} {i : Nat} => label_depth (l := l) (i := i) contained graded same
  refine ⟨d, graded.start, ?_, ?_, ?_, ?_, ?_⟩
  · intro i e found
    obtain ⟨e', emitted, instruction, -⟩ := getElem?_of_content same found
    rw [← instruction]
    exact graded.moves i e' emitted
  · intro i e l j found target placed
    have source := target_depth contained graded same found target
    exact Option.some.inj (source.symm.trans (label_at placed))
  · intro table mem
    rw [tables] at mem
    obtain ⟨region, inside, rfl⟩ := List.mem_map.mp mem
    obtain ⟨i, found⟩ := List.getElem?_of_mem inside
    obtain ⟨start, stop, rest, ranges, k, -, handler, begins⟩ :=
      range_of_closed (assigned.tables i region (by simpa using found))
    refine ⟨start, stop, rest, ranges, fun i j handled started => ?_⟩
    have first : k = d i := Option.some.inj (handler.symm.trans (label_at handled))
    have second : k = d j := Option.some.inj (begins.symm.trans (label_at started))
    exact first.symm.trans second
  · intro i e found returns
    obtain ⟨e', emitted, instruction, -⟩ := getElem?_of_content same found
    have fits := graded.fits i e' emitted contained
    rw [instruction] at fits
    rcases returns with returns | returns
    all_goals simpa only [returns] using fits
  · intro i e site found thrown sited subject
    obtain ⟨e', emitted, instruction, site_eq⟩ := getElem?_of_content same found
    have fits := graded.fits i e' emitted contained
    simp only [instruction, thrown] at fits
    replace fits := fits site (site_eq.trans sited) subject
    cases innermost : innermostRegion? site.boundaries with
    | none => simpa only [innermost] using fits
    | some index =>
      simp only [innermost] at fits
      have inside := assigned.regions index _ fits
      obtain ⟨start, stop, rest, ranges, k, depth, -, begins⟩ :=
        range_of_closed (assigned.tables index _ (Array.getElem?_eq_getElem inside))
      refine ⟨⟨a.regions[index].handler, _⟩, start, stop, rest, ?_, ranges, fun j started => ?_⟩
      · rw [tables, List.getElem?_map, Array.getElem?_toList, Array.getElem?_eq_getElem inside]
        rfl
      · have throw_depth : k = d i := Option.some.inj (depth.symm.trans fits)
        have begin_depth : k = d j := Option.some.inj (begins.symm.trans (label_at started))
        exact throw_depth.symm.trans begin_depth

/-! ## Programs -/

def CompileContext.containedSetting (c : CompileContext) (h : c.program.ContainsJumps) : Setting where
  toCompileContext := c
  surveyed := False
  admits := FunctionNode.ContainsJumps
  functionScope := ScopeTree.rootId
  discipline := .contained
  wellFormed := False.elim
  lawful := nofun
  contained := fun _ _ admitted => admitted
  obeys := fun _ => h.statements

theorem CompileContext.program_ofProgram {program : Program} {options : Options} {types : TypeTable}
    {c : CompileContext} (h : CompileContext.ofProgram program options types = .ok c) :
    c.program = program := by
  unfold CompileContext.ofProgram at h
  cases analyzed : Survey.analyze program options types with
  | error failure =>
    rw [analyzed] at h
    cases h
  | ok survey =>
    rw [analyzed] at h
    cases h
    rfl

/-- Every unit of a compiled program is balanced, if no `break` or `continue` leaves the `finally`
block in which it stands. -/
theorem balanced_of_containsJumps
    {program : Program} {options : Options} {types : TypeTable} {c : CompileContext}
    {result : CompiledProgram} (contained : program.ContainsJumps)
    (analyzed : CompileContext.ofProgram program options types = .ok c)
    (compiled : c.run = .ok result) :
    ∀ u ∈ result.units, ∃ node s d, c.names.get? node = some u.name ∧
      c.survey.tree.scopeOfNode? node = some s ∧
      u.Balanced (if c.survey.tree.needsEnv s then 1 else 0) d := by
  obtain rfl := CompileContext.program_ofProgram analyzed
  let S := c.containedSetting contained
  have root : S.toLedger.SurveyedRoot :=
    ⟨False.elim, fun s _ => Statement.unsurveyedList False.elim s _ fun node mem f same =>
      contained.functions node (.tail _ mem) f same⟩
  have outcome := run_outcome root
  rw [show S.run = .ok result from compiled] at outcome
  obtain ⟨sources, completes, -, -⟩ := outcome
  intro u mem
  obtain ⟨i, found⟩ := List.getElem?_of_mem mem
  obtain ⟨source, s, before, a, -, assembled⟩ := completes.assembled found
  obtain ⟨d, balanced⟩ := assembled.balanced rfl
  exact ⟨source.node c.program, s, d, assembled.named, assembled.recorded, balanced⟩

/-- The loop of the example is left from inside of a protected block, by `break` and by `throw`. -/
theorem balanced_collector : ∃ c result, Program.collector.ContainsJumps ∧
      CompileContext.ofProgram .collector {} (fun _ => none) = .ok c ∧ c.run = .ok result ∧
      result.units.length = 5 ∧
      ∀ u ∈ result.units, ∃ node s d, c.names.get? node = some u.name ∧
        c.survey.tree.scopeOfNode? node = some s ∧
        u.Balanced (if c.survey.tree.needsEnv s then 1 else 0) d := by
  obtain ⟨c, result, analyzed, compiled, count⟩ := collector_compiles
  have contained : Program.collector.ContainsJumps := by decide
  exact ⟨c, result, contained, analyzed, compiled, count,
    balanced_of_containsJumps contained analyzed compiled⟩

end AccScript
