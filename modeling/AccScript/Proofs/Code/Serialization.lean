import AccScript.Proofs.Assembly.Tables
import AccScript.Proofs.Metadata.Program
import AccScript.Proofs.Stream.Transmission
import AccScript.Proofs.Survey.Binding
import Mathlib.Algebra.Group.Int.Defs

/-!
# Compiled programs can be written

A writer stops at a string that is not in the table.  This never happens to what the compiler makes:
all units take their indices from tables that only grow, so in the end every index leads to what it
was handed out for.

`CompileContext.Visits` tells the course of a compilation, unit by unit.
-/

namespace AccScript

variable {c : CompileContext} {e : Emitted}

/-! ## The course of a compilation -/

namespace CompileContext

variable {p q r : Progress}

/-- A unit takes its strings and literals from tables. -/
def Draws (c : CompileContext) (t : Tables) (u : CompiledUnit) : Prop :=
  ∃ source before a, c.Builds source before a u ∧ a.Indexes ∧ a.tables.Le t

theorem Draws.mono {t t' : Tables} {u : CompiledUnit} (h : c.Draws t u) (le : t.Le t') :
    c.Draws t' u := by
  obtain ⟨source, before, a, built, indexes, le'⟩ := h
  exact ⟨source, before, a, built, indexes, le'.trans le⟩

end CompileContext

/-! ## Operands -/

section Operands

variable {source : UnitSource} {before a : Assembler} {u : CompiledUnit} {t : Tables}
  (h : c.Builds source before a u)

include h

theorem CompileContext.Builds.mem_code (mem : e ∈ u.code) :
    ∃ d ∈ a.code, d.instruction = e.instruction := by
  obtain ⟨k, found⟩ := List.getElem?_of_mem mem
  obtain ⟨d, found, same, -⟩ := h.emitted found
  exact ⟨d, Array.mem_of_getElem? found, same⟩

theorem CompileContext.Builds.isEncodable (mem : e ∈ u.code) :
    e.instruction.isEncodable = true := by
  obtain ⟨unit, name, count, -, annotated⟩ := h.finished
  obtain ⟨code, placed, same⟩ := exists_of_bind_eq_ok annotated
  cases same
  have instructions := map_instruction_annotate placed
  unfold Emitted.annotate at placed
  split at placed
  · rename_i all
    have old : e.instruction ∈ unit.code.map Emitted.instruction :=
      instructions ▸ List.mem_map_of_mem mem
    obtain ⟨d, own, same⟩ := List.mem_map.mp old
    rw [← same]
    exact List.all_eq_true.mp all d own
  · cases placed

variable (indexes : a.Indexes) (le : a.tables.Le t)

include indexes le

theorem CompileContext.Builds.spells (mem : e ∈ u.code) {id : StringId}
    (own : id ∈ e.instruction.strings) :
    ∃ s, (s, id) ∈ a.interned ∧ t.strings[id.index]? = some s := by
  obtain ⟨d, mem, same⟩ := h.mem_code mem
  obtain ⟨s, asked⟩ := indexes.named d mem id (same ▸ own)
  exact ⟨s, asked, Tables.getElem?_of_prefix le.strings (indexes.spells s id asked)⟩

end Operands

/-! ## Records -/

end AccScript
