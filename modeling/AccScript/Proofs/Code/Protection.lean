import AccScript.Proofs.Lowering.Program
import Mathlib.Data.Set.Lattice
import Mathlib.Order.CompletePartialOrder

/-!
# Protected instructions

The ranges of a catch table are cut into pieces wherever a finalizer is copied.  What the pieces
protect is still simple to say: the instructions that were emitted inside of the region of the
table.  `followsRegions_of_run` says so, and draws two conclusions: protected code nests, and no copy
of a finalizer is protected by the statement that it finalizes.
-/

namespace AccScript

namespace CompiledUnit

variable {e : Emitted}

/-- An instruction that is no label stands at a place. -/
def HasInstructionAt (u : CompiledUnit) (k : Nat) : Prop :=
  ∃ e : Emitted, u.code[k]? = some e ∧ e.instruction.isLabel = false

/-- The places whose instructions a catch table protects: those inside of one of its ranges. -/
def protectedBy (u : CompiledUnit) (table : CatchTable) : Set Nat :=
  { k | u.HasInstructionAt k ∧ ∃ range ∈ table.ranges, ∃ i j,
    u.HasLabelAt range.1 i ∧ u.HasLabelAt range.2 j ∧ i < k ∧ k < j }

/-- The catch tables of a unit protect what its regions enclose; `a` is the assembler of the unit. -/
structure FollowsRegions (u : CompiledUnit) (a : Assembler) : Prop where
  /-- An instruction is protected by the tables of the regions that were around it when it was
  emitted. -/
  exactly : ∀ k e, u.code[k]? = some e → e.instruction.isLabel = false → ∀ i,
    (∃ table, u.catchTables[i]? = some table ∧ k ∈ u.protectedBy table) ↔ .region i ∈ e.boundaries
  nested : ∀ table ∈ u.catchTables, ∀ table' ∈ u.catchTables,
    u.protectedBy table ⊆ u.protectedBy table' ∨ u.protectedBy table' ⊆ u.protectedBy table ∨
      Disjoint (u.protectedBy table) (u.protectedBy table')
  /-- A copy of a finalizer is protected neither by the region that it finalizes nor by one inside
  of that. -/
  copies : ∀ copy ∈ a.copies, ∀ k, copy.start ≤ k → k < copy.stop → ∀ i table region,
    u.catchTables[i]? = some table → a.regions[i]? = some region →
      i = copy.region ∨ .region copy.region ∈ region.around → k ∉ u.protectedBy table

end CompiledUnit

variable {c : CompileContext} {source : UnitSource} {before a : Assembler} {u : CompiledUnit}

theorem Nests.mem_of_mem_around
    {regions : Array TryRegion} {boundaries : List Boundary} (h : Nests regions boundaries) {i : Nat}
    {region : TryRegion} (found : regions[i]? = some region) (mem : .region i ∈ boundaries)
    {b : Boundary} (around : b ∈ region.around) : b ∈ boundaries := by
  obtain ⟨rest, suffix⟩ := mem_region_iff.mp mem
  obtain ⟨region', found', same⟩ := h i rest suffix
  rw [found, Option.some.injEq] at found'
  subst found' same
  exact suffix.subset (.tail _ around)

theorem Nests.mem_around_or
    {regions : Array TryRegion} {boundaries : List Boundary} (h : Nests regions boundaries)
    {i j : Nat} {region region' : TryRegion} (found : regions[i]? = some region)
    (found' : regions[j]? = some region') (mem : .region i ∈ boundaries)
    (mem' : .region j ∈ boundaries) :
    i = j ∨ .region j ∈ region.around ∨ .region i ∈ region'.around := by
  obtain ⟨rest, suffix⟩ := mem_region_iff.mp mem
  obtain ⟨rest', suffix'⟩ := mem_region_iff.mp mem'
  obtain ⟨_, same, around⟩ := h i rest suffix
  rw [found, Option.some.injEq] at same
  subst same around
  obtain ⟨_, same, around⟩ := h j rest' suffix'
  rw [found', Option.some.injEq] at same
  subst same around
  rcases List.suffix_or_suffix_of_suffix suffix suffix' with inner | inner
  · rcases List.suffix_cons_iff.mp inner with same | inside
    · exact .inl (Boundary.region.inj (List.cons.inj same).1)
    · exact .inr (.inr (mem_region_iff.mpr ⟨_, inside⟩))
  · rcases List.suffix_cons_iff.mp inner with same | inside
    · exact .inl (Boundary.region.inj (List.cons.inj same).1).symm
    · exact .inr (.inl (mem_region_iff.mpr ⟨_, inside⟩))

namespace CompileContext.Builds

variable (h : c.Builds source before a u)

include h

theorem mem_protectedBy_iff {i k : Nat} {table : CatchTable}
    (found : u.catchTables[i]? = some table) (here : u.code[k]? = some e)
    (plain : e.instruction.isLabel = false) :
    k ∈ u.protectedBy table ↔ .region i ∈ e.boundaries := by
  obtain ⟨region, made, sound, rfl⟩ := h.region_of_table found
  obtain ⟨e', emitted, instruction, -, boundaries⟩ := h.emitted here
  have covers := h.watched.regions.covers k e' i region emitted (instruction ▸ plain) made
  rw [← boundaries, ← covers]
  constructor
  · rintro ⟨-, range, mem, i, j, start, stop, after, before⟩
    exact .inl ⟨range, mem, i, j, h.hasLabelAt_iff.mp start, h.hasLabelAt_iff.mp stop, after, before⟩
  · rintro (⟨range, mem, i, j, start, stop, after, before⟩ | ⟨start, i, opened, -⟩)
    · exact ⟨⟨e, here, plain⟩, range, mem, i, j, h.hasLabelAt_iff.mpr start,
        h.hasLabelAt_iff.mpr stop, after, before⟩
    · exact (sound.isOpen.mp (by rw [opened]; rfl)).elim

theorem nests {k : Nat} (here : u.code[k]? = some e) : Nests a.regions e.boundaries := by
  obtain ⟨e', emitted, -, -, boundaries⟩ := h.emitted here
  exact boundaries ▸ h.watched.regions.nests k e' emitted

theorem protectedBy_subset {i j : Nat} {table table' : CatchTable} {region : TryRegion}
    (found : u.catchTables[i]? = some table) (found' : u.catchTables[j]? = some table')
    (made : a.regions[i]? = some region) (around : .region j ∈ region.around) :
    u.protectedBy table ⊆ u.protectedBy table' := by
  rintro k ⟨⟨e, here, plain⟩, ranges⟩
  have inside : .region i ∈ e.boundaries :=
    (h.mem_protectedBy_iff found here plain).mp ⟨⟨e, here, plain⟩, ranges⟩
  have outside := (h.nests here).mem_of_mem_around made inside around
  exact (h.mem_protectedBy_iff found' here plain).mpr outside

theorem protectedBy_nested {i j : Nat} {table table' : CatchTable}
    (found : u.catchTables[i]? = some table) (found' : u.catchTables[j]? = some table') :
    u.protectedBy table ⊆ u.protectedBy table' ∨ u.protectedBy table' ⊆ u.protectedBy table ∨
      Disjoint (u.protectedBy table) (u.protectedBy table') := by
  by_cases shared : ∃ k, k ∈ u.protectedBy table ∧ k ∈ u.protectedBy table'
  · obtain ⟨k, mem, mem'⟩ := shared
    obtain ⟨e, here, plain⟩ := mem.1
    obtain ⟨region, made, -, -⟩ := h.region_of_table found
    obtain ⟨region', made', -, -⟩ := h.region_of_table found'
    rcases (h.nests here).mem_around_or made made' ((h.mem_protectedBy_iff found here plain).mp mem)
      ((h.mem_protectedBy_iff found' here plain).mp mem') with rfl | around | around
    · rw [found, Option.some.injEq] at found'
      subst found'
      exact .inl Set.Subset.rfl
    · exact .inl (h.protectedBy_subset found found' made around)
    · exact .inr (.inl (h.protectedBy_subset found' found made' around))
  · refine .inr (.inr (Set.disjoint_left.mpr fun k mem mem' => shared ⟨k, mem, mem'⟩))

theorem not_mem_of_copy {copy : FinalizerCopy} (mem : copy ∈ a.copies) {k : Nat}
    (after : copy.start ≤ k) (before : k < copy.stop) (here : u.code[k]? = some e) :
    .region copy.region ∉ e.boundaries := by
  obtain ⟨e', emitted, -, -, boundaries⟩ := h.emitted here
  exact boundaries ▸ (h.watched.copies copy mem).outside k e' after before emitted

theorem followsRegions : u.FollowsRegions a where
  exactly k e here plain i := by
    constructor
    · rintro ⟨table, found, inside⟩
      exact (h.mem_protectedBy_iff found here plain).mp inside
    · intro inside
      obtain ⟨rest, suffix⟩ := mem_region_iff.mp inside
      obtain ⟨region, made, -⟩ := h.nests here i rest suffix
      have found := h.table_of_region made
      exact ⟨_, found, (h.mem_protectedBy_iff found here plain).mpr inside⟩
  nested table mem table' mem' := by
    obtain ⟨i, found⟩ := List.getElem?_of_mem mem
    obtain ⟨j, found'⟩ := List.getElem?_of_mem mem'
    exact h.protectedBy_nested found found'
  copies copy copied k after before i table region found made own inside := by
    obtain ⟨e, here, plain⟩ := inside.1
    have around := (h.mem_protectedBy_iff found here plain).mp inside
    have outside := h.not_mem_of_copy copied after before here
    rcases own with rfl | inner
    · exact outside around
    · exact outside ((h.nests here).mem_of_mem_around made around inner)

end CompileContext.Builds

/-- In every unit of a compiled program the catch tables protect what the regions enclose. -/
theorem followsRegions_of_run
    {c : CompileContext} {result : CompiledProgram} (compiled : c.run = .ok result) :
    ∀ u ∈ result.units, ∃ source before a, c.Builds source before a u ∧ u.FollowsRegions a := by
  intro u mem
  obtain ⟨source, before, a, built⟩ := CompileContext.builds_of_run compiled mem
  exact ⟨source, before, a, built, built.followsRegions⟩

/-- The finalizer of the example is copied in front of a `break`. -/
theorem followsRegions_collector :
    ∃ c result, CompileContext.ofProgram .collector {} (fun _ => none) = .ok c ∧
      c.run = .ok result ∧ result.units.length = 5 ∧
      ∀ u ∈ result.units, ∃ source before a, c.Builds source before a u ∧ u.FollowsRegions a := by
  obtain ⟨c, result, analyzed, compiled, count⟩ := collector_compiles
  exact ⟨c, result, analyzed, compiled, count, followsRegions_of_run compiled⟩

end AccScript
