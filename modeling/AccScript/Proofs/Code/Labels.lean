import AccScript.Proofs.Lowering.Program

/-!
# The labels of a unit

A label is made before it is known where it will stand, and some are made by the dozen while
finalizers are copied.  `labelsClosed_of_compile` says that none is left over: whatever a unit jumps
to, hands exceptions to or protects from and to is marked by one label of that very unit.
-/

namespace AccScript

namespace CompiledUnit

variable {l : Label}

/-- Labels are placed at most once, and those that are used exactly once. -/
structure LabelsClosed (u : CompiledUnit) : Prop where
  unique : ∀ l i j, u.HasLabelAt l i → u.HasLabelAt l j → i = j
  targets : ∀ e ∈ u.code, ∀ l, e.instruction.target? = some l → ∃! i, u.HasLabelAt l i
  handlers : ∀ table ∈ u.catchTables, ∃! i, u.HasLabelAt table.handler i
  ranges : ∀ table ∈ u.catchTables, ∀ range ∈ table.ranges,
    (∃! i, u.HasLabelAt range.1 i) ∧ (∃! j, u.HasLabelAt range.2 j) ∧
      ∀ i j, u.HasLabelAt range.1 i → u.HasLabelAt range.2 j → i < j
  /-- Control does not run off the end. -/
  terminated : ∃ e, u.code.getLast? = some e ∧ e.instruction.isTerminator = true

end CompiledUnit

variable {c : CompileContext} {source : UnitSource} {before a : Assembler} {u : CompiledUnit}

namespace CompileContext.Builds

theorem unique_label (h : c.Builds source before a u) {i j : Nat}
    (there : u.HasLabelAt l i) (there' : u.HasLabelAt l j) : i = j :=
  h.watched.labels.unique (h.hasLabelAt_iff.mp there) (h.hasLabelAt_iff.mp there')

theorem existsUnique_label (h : c.Builds source before a u) {i : Nat}
    (there : LabelAt a.code l i) : ∃! i, u.HasLabelAt l i :=
  ⟨i, h.hasLabelAt_iff.mpr there, fun _ other => h.unique_label other (h.hasLabelAt_iff.mpr there)⟩

theorem labelAt_of_expected (h : Expected [] a.code l) : ∃ i, LabelAt a.code l i :=
  h.resolve_left (List.not_mem_nil)

theorem terminated (h : c.Builds source before a u) :
    ∃ e, u.code.getLast? = some e ∧ e.instruction.isTerminator = true := by
  have stops := h.isTerminated
  unfold Assembler.isTerminated at stops
  split at stops
  · rename_i e last
    rw [Array.back?_eq_getElem?] at last
    obtain ⟨e', found, same, -⟩ := h.placed last
    refine ⟨e', ?_, same ▸ stops⟩
    have length : u.code.length = a.code.size := by
      simpa using congrArg List.length h.parts.1
    rw [List.getLast?_eq_getElem?, length]
    exact found
  · cases stops

theorem labelsClosed (h : c.Builds source before a u) : u.LabelsClosed where
  unique _ _ _ := h.unique_label
  targets e mem l target := by
    obtain ⟨k, found⟩ := List.getElem?_of_mem mem
    obtain ⟨e', found', same, -⟩ := h.emitted found
    obtain ⟨i, there⟩ := labelAt_of_expected (h.watched.labels.targets k e' l found' (same ▸ target))
    exact h.existsUnique_label there
  handlers table mem := by
    obtain ⟨n, found⟩ := List.getElem?_of_mem mem
    obtain ⟨region, -, sound, rfl⟩ := h.region_of_table found
    obtain ⟨i, there⟩ := labelAt_of_expected sound.handler
    exact h.existsUnique_label there
  ranges table mem range inside := by
    obtain ⟨n, found⟩ := List.getElem?_of_mem mem
    obtain ⟨region, -, sound, rfl⟩ := h.region_of_table found
    obtain ⟨i, j, start, stop, lt⟩ := sound.ranges range inside
    refine ⟨h.existsUnique_label start, h.existsUnique_label stop, fun i' j' start' stop' => ?_⟩
    obtain rfl := h.unique_label (h.hasLabelAt_iff.mpr start) start'
    obtain rfl := h.unique_label (h.hasLabelAt_iff.mpr stop) stop'
    exact lt
  terminated := h.terminated

end CompileContext.Builds

/-- The labels of every unit of a compiled program are closed, and no two units share one. -/
theorem labelsClosed_of_compile
    {program : Program} {options : Options} {types : TypeTable} {result : CompiledProgram}
    (compiled : compile program options types = .ok result) :
    (∀ u ∈ result.units, u.LabelsClosed) ∧ result.units.Pairwise CompiledUnit.Apart := by
  obtain ⟨c, -, ran⟩ := compile_eq_ok_iff.mp compiled
  obtain ⟨next, allots⟩ := CompileContext.allots_of_run ran
  refine ⟨fun u mem => ?_, allots.apart⟩
  obtain ⟨source, before, a, built, -, -⟩ := allots.builds u mem
  exact built.labelsClosed

/-- A loop with a protected block and a copied finalizer, in one of five units. -/
theorem labelsClosed_collector :
    ∃ result, compile .collector {} (fun _ => none) = .ok result ∧ result.units.length = 5 ∧
      (∀ u ∈ result.units, u.LabelsClosed) ∧ result.units.Pairwise CompiledUnit.Apart := by
  obtain ⟨c, result, analyzed, ran, count⟩ := collector_compiles
  have compiled := compile_eq_ok_iff.mpr ⟨c, analyzed, ran⟩
  exact ⟨result, compiled, count, labelsClosed_of_compile compiled⟩

end AccScript
