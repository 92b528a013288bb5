import AccScript.Proofs.Lowering.Agreement

/-!
# The units of a program and their names

Units are found while others are made, and a function in a copied finalizer or in the fields of a
class is found again with every copy.  In the end every unit has been made once, under a name of its
own, after all units that its code names, and the unit of the program comes last.  This is
`units_of_run`.

It needs nodes whose identities are below the next one that is free.  The constructor of a class that
declares none takes a free identity; `displaced_usurper` is a program that has taken it before.
-/

namespace AccScript

/-- A name is that of exactly one unit, which comes before a place. -/
def CompiledProgram.DefinesBefore (result : CompiledProgram) (i : Nat) (name : String) : Prop :=
  ∃ j < i, ∀ k, (result.units[k]?.map CompiledUnit.name = some name ↔ k = j)

/-- The units of a program are complete, in order and told apart. -/
structure CompileContext.Units (c : CompileContext) (result : CompiledProgram) : Prop where
  distinct : (result.units.map CompiledUnit.name).Nodup
  /-- What a unit names comes before it. -/
  linked : ∀ i u, result.units[i]? = some u → ∀ e ∈ u.code,
    result.tables.Links (result.DefinesBefore i) e.instruction
  /-- No node is compiled twice. -/
  once : ∃ sources, (c.nodes sources).Nodup ∧
    List.Forall₂ (fun u source => ∃ before a, c.Builds source before a u) result.units sources
  /-- The unit of the program is the last. -/
  main : ∃ front u, result.units = front ++ [u] ∧ u.name = mainUnitName ∧
    ∀ v ∈ front, v.name ≠ mainUnitName

section

variable {S : Setting} {sources : List UnitSource} {units : List CompiledUnit} {t : Tables}

theorem Setting.Completes.names_eq (h : S.Completes sources units t) :
    (units.map CompiledUnit.name).map some = (S.nodes sources).map S.names.get? := by
  rw [CompileContext.nodes, List.map_map, List.map_map, ← List.forall₂_eq_eq_eq,
    List.forall₂_map_left_iff, List.forall₂_map_right_iff]
  refine h.assembles.imp fun u source made => ?_
  obtain ⟨s, before, a, assembled⟩ := made
  exact assembled.named.symm

theorem Setting.Completes.nodup_names
    (h : S.Completes sources units t) (distinct : (S.nodes sources).Nodup)
    (unique : ∀ node other name, S.names.get? node = some name → S.names.get? other = some name →
      node = other) : (units.map CompiledUnit.name).Nodup := by
  refine List.Nodup.of_map some ?_
  rw [h.names_eq]
  refine distinct.map_on fun node mem other _ same => ?_
  have named : S.names.get? node ∈ (units.map CompiledUnit.name).map some := by
    rw [h.names_eq]
    exact List.mem_map_of_mem mem
  obtain ⟨name, -, own⟩ := List.mem_map.mp named
  exact unique node other name own.symm (same ▸ own.symm)

theorem Setting.Completes.getElem?_name
    (h : S.Completes sources units t) {j : Nat} {source : UnitSource} {name : String}
    (found : sources[j]? = some source)
    (named : S.names.get? (source.node S.program) = some name) :
    (units.map CompiledUnit.name)[j]? = some name := by
  have place : ((units.map CompiledUnit.name).map some)[j]? = some (some name) := by
    rw [h.names_eq, CompileContext.nodes, List.map_map, List.getElem?_map, found]
    exact congrArg some named
  rw [List.getElem?_map] at place
  obtain ⟨_, own, same⟩ := Option.map_eq_some_iff.mp place
  cases same
  exact own

end

/-- The units of a compiled program are complete, in order and told apart. -/
theorem units_of_run {p : Program} {options : Options} {types : TypeTable} {c : CompileContext}
    {result : CompiledProgram} (numbered : p.WellNumbered)
    (analyzed : CompileContext.ofProgram p options types = .ok c)
    (compiled : c.run = .ok result) : c.Units result := by
  obtain ⟨tree, front, completes, once⟩ :=
    CompileContext.completes_of_run numbered analyzed compiled
  have distinct : (result.units.map CompiledUnit.name).Nodup :=
    completes.nodup_names once fun node other name =>
      CompileContext.eq_of_names numbered analyzed
  refine ⟨distinct, fun i u found e mem => ?_, ⟨_, once, ?_⟩, ?_⟩
  · refine (completes.links trivial i u found e mem).mono (.refl _) ?_
    rintro name ⟨source, earlier, -, named⟩
    obtain ⟨j, place⟩ := List.mem_iff_getElem?.mp earlier
    rw [List.getElem?_take, Option.ite_none_right_eq_some] at place
    have own := completes.getElem?_name place.2 named
    have inside := (List.getElem?_eq_some_iff.mp own).1
    refine ⟨j, place.1, fun k => ?_⟩
    rw [← List.getElem?_map, ← own, eq_comm, List.getElem?_inj inside distinct, eq_comm]
  · exact completes.assembles.imp fun u source ⟨s, before, a, assembled⟩ =>
      ⟨before, a, assembled.built⟩
  · have last : (front ++ [UnitSource.program])[front.length]? = some .program := by simp
    have own := completes.getElem?_name last (CompileContext.names_program numbered analyzed)
    have length := completes.assembles.length_eq
    rcases List.eq_nil_or_concat result.units with empty | ⟨units, u, concat⟩
    · simp [empty] at length
    · rw [List.concat_eq_append] at concat
      rw [concat, List.map_append, List.map_singleton] at own distinct
      have front_length : front.length = (units.map CompiledUnit.name).length := by
        simpa [concat] using length.symm
      rw [front_length, List.getElem?_concat_length] at own
      have main : u.name = mainUnitName := Option.some.inj own
      refine ⟨units, u, concat, main, fun v mem same => ?_⟩
      refine List.disjoint_of_nodup_append distinct (List.mem_map_of_mem mem) ?_
      rw [same, ← main]
      exact List.mem_singleton_self _

/-- The example has a closure in a loop, and a class with a method and no constructor. -/
theorem units_collector : Program.collector.WellNumbered ∧
      ∃ c result, CompileContext.ofProgram .collector {} (fun _ => none) = .ok c ∧
        c.run = .ok result ∧ result.units.length = 5 ∧ c.Units result := by
  obtain ⟨c, result, analyzed, compiled, count⟩ := collector_compiles
  have numbered : Program.collector.WellNumbered := by decide
  exact ⟨numbered, c, result, analyzed, compiled, count, units_of_run numbered analyzed compiled⟩

/-! ## A program that has taken the next identity -/

/-- A class without a constructor, in a program whose identity is the next one that is free. -/
def Program.usurper : Program :=
  { id := 3, position := ⟨1, 0⟩, isStrict := false, nextNodeId := 3, derivedFrom := []
    statements := [⟨0, ⟨1, 0⟩, .classDecl ⟨1, ⟨1, 0⟩, some ⟨"A", 2⟩, none, false, []⟩ .none⟩] }

/-- All nodes are told apart, but the constructor of the class takes the name of the program. -/
theorem displaced_usurper : (Program.usurper.nodes.map SourceNode.id).Nodup ∧
      ∃ c result, CompileContext.ofProgram .usurper {} (fun _ => none) = .ok c ∧
        c.run = .ok result ∧ mainUnitName ∉ result.units.map CompiledUnit.name := by
  have names : ((CompileContext.ofProgram .usurper {} (fun _ => none)).bind fun c =>
      c.run.map fun result => result.units.map CompiledUnit.name).toOption = some ["#*#A"] := by
    decide +kernel
  obtain ⟨c, result, analyzed, compiled, only⟩ := exists_of_compiled names
  refine ⟨by decide, c, result, analyzed, compiled, ?_⟩
  rw [only]
  decide

end AccScript
