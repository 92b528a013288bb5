import AccScript.Code.Compiled

/-!
# Placed code

When a unit is finished its instructions get their positions.  Nothing else about them changes.
-/

namespace AccScript

namespace Emitted

/-- What an instruction keeps when it is placed. -/
def content (e : Emitted) : Instruction × Option Site × List Boundary :=
  (e.instruction, e.site, e.boundaries)

theorem map_content_settleLabels (code : List Emitted) :
    (settleLabels code).map content = code.map content := by
  induction code with
  | nil => rfl
  | cons e rest ih =>
    rw [settleLabels, List.map_cons, List.map_cons, ih]
    split <;> rfl

theorem map_content_place
    (start : Position) (debugMode : Bool) (offset : Nat) (code : List Emitted) :
    (place start debugMode offset code).map content = code.map content := by
  induction code generalizing offset with
  | nil => rfl
  | cons e rest ih =>
    rw [place, List.map_cons, List.map_cons, ih]
    rfl

theorem map_content_annotate {start : Position} {debugMode : Bool} {code placed : List Emitted}
    (h : annotate start debugMode code = .ok placed) : placed.map content = code.map content := by
  unfold annotate at h
  split at h
  · cases h
    rw [map_content_place, map_content_settleLabels]
  · cases h

theorem getElem?_of_map_content
    {code code' : List Emitted} (same : code.map content = code'.map content) {k : Nat} {e : Emitted}
    (found : code[k]? = some e) :
    ∃ e' : Emitted, code'[k]? = some e' ∧ e'.instruction = e.instruction ∧ e'.site = e.site ∧
      e'.boundaries = e.boundaries := by
  have mapped : (code'.map content)[k]? = some e.content := by
    rw [← same, List.getElem?_map, found]
    rfl
  rw [List.getElem?_map, Option.map_eq_some_iff] at mapped
  obtain ⟨e', found', kept⟩ := mapped
  exact ⟨e', found', by simpa [content] using kept⟩

end Emitted

namespace CompiledUnit

/-- A label stands at a place in the code. -/
def HasLabelAt (u : CompiledUnit) (l : Label) (i : Nat) : Prop :=
  ∃ e : Emitted, u.code[i]? = some e ∧ e.instruction = .label l

end CompiledUnit

end AccScript
