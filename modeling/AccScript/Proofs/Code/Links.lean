import AccScript.Assembler.Basic
import Mathlib.Data.List.Infix

/-!
# Units that name each other

An instruction that makes a function or a class names the units of its code: through the string
table, and for the first methods of a class through a literal buffer.  `Tables.Links` says that all
names that an instruction takes from the tables of a program have a property.  Tables only grow
while a program is compiled, so a link that holds once holds in the end.
-/

namespace AccScript

variable {i : Instruction}

/-- The strings and the literal buffers of a program. -/
structure Tables where
  strings : List String := []
  literals : List LiteralBuffer := []

def Assembler.tables (a : Assembler) : Tables where
  strings := a.strings
  literals := a.literals.toList

def CompiledProgram.tables (p : CompiledProgram) : Tables where
  strings := p.strings
  literals := p.literals

namespace Instruction

/-- The unit that an instruction names. -/
def function? : Instruction → Option StringId
  | .defineFunc f _ | .defineMethod f _ | .defineClassWithBuffer f _ _ _ => some f
  | _ => none

/-- The literal buffer that holds the first methods of a class. -/
def methods? : Instruction → Option Nat
  | .defineClassWithBuffer _ literal _ _ => some literal
  | _ => none

end Instruction

namespace Tables

/-- Everything is still at its place. -/
structure Le (t u : Tables) : Prop where
  strings : t.strings <+: u.strings
  literals : t.literals <+: u.literals

variable {t u w : Tables}

theorem Le.refl (t : Tables) : t.Le t :=
  ⟨List.prefix_rfl, List.prefix_rfl⟩

theorem Le.trans (h : t.Le u) (h' : u.Le w) : t.Le w :=
  ⟨h.strings.trans h'.strings, h.literals.trans h'.literals⟩

theorem getElem?_of_prefix
    {α : Type} {before after : List α} (h : before <+: after) {i : Nat} {x : α}
    (found : before[i]? = some x) : after[i]? = some x := by
  obtain ⟨rest, rfl⟩ := h
  obtain ⟨inside, -⟩ := List.getElem?_eq_some_iff.mp found
  rw [List.getElem?_append_left inside]
  exact found

theorem prefix_insertNew {α : Type} [DecidableEq α] (items : List α) (x : α) :
    items <+: insertNew items x := by
  unfold insertNew
  split
  · exact List.prefix_rfl
  · exact List.prefix_append items [x]

/-- A string that has been looked up is in the table. -/
theorem getElem?_insertNew {α : Type} [DecidableEq α] (items : List α) (x : α) :
    (insertNew items x)[(insertNew items x).idxOf x]? = some x := by
  have mem : x ∈ insertNew items x := by
    unfold insertNew
    split
    · assumption
    · exact List.mem_append_right _ (List.mem_singleton_self x)
  rw [List.getElem?_eq_getElem (List.idxOf_lt_length_of_mem mem), List.getElem_idxOf]

theorem le_intern (a : Assembler) (s : String) :
    a.tables.Le (Assembler.tables { a with strings := insertNew a.strings s }) :=
  ⟨prefix_insertNew a.strings s, List.prefix_rfl⟩

theorem le_addLiteral (a : Assembler) (buffer : LiteralBuffer) :
    a.tables.Le (Assembler.tables { a with literals := a.literals.push buffer }) := by
  refine ⟨List.prefix_rfl, ?_⟩
  show a.literals.toList <+: (a.literals.push buffer).toList
  rw [Array.toList_push]
  exact List.prefix_append _ _

/-- All units that an instruction names have a property. -/
structure Links (t : Tables) (P : String → Prop) (i : Instruction) : Prop where
  function : ∀ f, i.function? = some f → ∃ name, t.strings[f.index]? = some name ∧ P name
  methods : ∀ k, i.methods? = some k → ∃ buffer, t.literals[k]? = some buffer ∧
    ∀ name, .method name ∈ buffer → P name

theorem Links.mono {P Q : String → Prop} (h : t.Links P i) (le : t.Le u)
    (weaker : ∀ name, P name → Q name) : u.Links Q i := by
  refine ⟨fun f own => ?_, fun k own => ?_⟩
  · obtain ⟨name, found, holds⟩ := h.function f own
    exact ⟨name, getElem?_of_prefix le.strings found, weaker name holds⟩
  · obtain ⟨buffer, found, holds⟩ := h.methods k own
    exact ⟨buffer, getElem?_of_prefix le.literals found, fun name mem => weaker name (holds name mem)⟩

theorem links_of_string {P : String → Prop} {f : StringId} {name : String}
    (names : i.function? = some f) (simple : i.methods? = none)
    (found : t.strings[f.index]? = some name) (holds : P name) : t.Links P i := by
  refine ⟨fun g own => ?_, fun k own => ?_⟩
  · rw [names] at own
    cases own
    exact ⟨name, found, holds⟩
  · rw [simple] at own
    cases own

/-- Most instructions name no unit. -/
theorem links_of_none {P : String → Prop} (none : i.function? = none) : t.Links P i := by
  refine ⟨fun f own => ?_, fun k own => ?_⟩
  · rw [none] at own
    cases own
  · unfold Instruction.methods? at own
    split at own
    · cases none
    · cases own

end Tables

end AccScript
