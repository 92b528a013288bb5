import AccScript.Proofs.Code.Placement
import Mathlib

/-!
# The layout of placed code

The bytes of a unit lie one behind the other in the order of its instructions, and labels stand for
the place in the source of the instruction that they lead to.  Placing code a second time changes
nothing.
-/

namespace AccScript

/-- The place in the source, if there is one; `start` is where the function starts. -/
def Origin.position? (start : Position) : Origin → Option Position
  | .nowhere => none
  | .functionStart => some start
  | .source position => some position

namespace Emitted

variable {start : Position} {debugMode : Bool} {offset : Nat} {code : List Emitted}

def bytes (code : List Emitted) : Nat :=
  (code.map fun e => e.instruction.encodedSize).sum

/-- The origin of the instruction that control reaches next. -/
def nextOrigin (code : List Emitted) : Origin :=
  ((code.find? fun e => !e.instruction.isLabel).map Emitted.origin).getD .nowhere

/-- The code with a contiguous layout and the places in the source that it stands for. -/
structure LaidOut (start : Position) (debugMode : Bool) (code placed : List Emitted) : Prop where
  content : placed.map Emitted.content = code.map Emitted.content
  first : debugMode = true → ∀ e ∈ placed.head?, e.placement.boundLeft = 0
  size : debugMode = true → ∀ e ∈ placed,
    e.placement.boundRight = e.placement.boundLeft + e.instruction.encodedSize
  next : debugMode = true →
    placed.IsChain fun e e' => e.placement.boundRight = e'.placement.boundLeft
  isWord : ∀ e ∈ placed, e.placement.boundRight < 2 ^ 32
  unbounded : debugMode = false → ∀ e ∈ placed,
    e.placement.boundLeft = 0 ∧ e.placement.boundRight = 0
  /-- Lines and columns are those of the next instruction that is not a label. -/
  position : ∀ i e, placed[i]? = some e → (e.placement.line, e.placement.column) =
    match (nextOrigin (code.drop i)).position? start with
    | some position => (((min position.line (2 ^ 31 - 1) : Nat) : Int),
        ((min position.column (2 ^ 31 - 1) : Nat) : Int))
    | none => (-1, -1)

/-! ## Labels -/

theorem firstOrigin_eq_nextOrigin (code : List Emitted) : firstOrigin code = nextOrigin code := by
  induction code with
  | nil => rfl
  | cons e rest ih =>
    unfold firstOrigin nextOrigin
    cases isLabel : e.instruction.isLabel with
    | false => simp [isLabel]
    | true => simpa [isLabel, nextOrigin] using ih

theorem origin_settleLabels {i : Nat} {e : Emitted} (found : (settleLabels code)[i]? = some e) :
    e.origin = nextOrigin (code.drop i) := by
  rw [← firstOrigin_eq_nextOrigin]
  induction code generalizing i with
  | nil => simp [settleLabels] at found
  | cons first rest ih =>
    cases i with
    | zero =>
      cases found
      rw [List.drop_zero, firstOrigin]
      split <;> rfl
    | succ i => exact ih found

theorem firstOrigin_settleLabels (code : List Emitted) :
    firstOrigin (settleLabels code) = firstOrigin code := by
  induction code with
  | nil => rfl
  | cons e rest ih => cases isLabel : e.instruction.isLabel <;> simp [settleLabels, firstOrigin, isLabel, ih]

theorem settleLabels_settleLabels (code : List Emitted) :
    settleLabels (settleLabels code) = settleLabels code := by
  induction code with
  | nil => rfl
  | cons e rest ih =>
    cases isLabel : e.instruction.isLabel <;>
      simp [settleLabels, isLabel, ih, firstOrigin_settleLabels]

/-! ## Bounds and places -/

theorem firstOrigin_place (offset : Nat) (code : List Emitted) :
    firstOrigin (place start debugMode offset code) = firstOrigin code := by
  induction code generalizing offset with
  | nil => rfl
  | cons e rest ih => simp [place, firstOrigin, ih]

theorem settleLabels_place (offset : Nat) {code : List Emitted}
    (settled : settleLabels code = code) :
    settleLabels (place start debugMode offset code) = place start debugMode offset code := by
  induction code generalizing offset with
  | nil => rfl
  | cons e rest ih =>
    obtain ⟨own, rest_settled⟩ := List.cons.inj settled
    cases isLabel : e.instruction.isLabel with
    | false => simp [place, settleLabels, isLabel, ih _ rest_settled]
    | true =>
      rw [if_pos isLabel] at own
      have origin : firstOrigin rest = e.origin := congrArg Emitted.origin own
      simp [place, settleLabels, isLabel, ih _ rest_settled, firstOrigin_place, origin]

theorem place_place (offset : Nat) (code : List Emitted) :
    place start debugMode offset (place start debugMode offset code) =
      place start debugMode offset code := by
  induction code generalizing offset with
  | nil => rfl
  | cons e rest ih => simp [place, ih]

theorem placement_place {i : Nat} {e : Emitted}
    (found : (place start debugMode offset code)[i]? = some e) :
    ∃ old, code[i]? = some old ∧
      (e.placement.line, e.placement.column) = old.origin.lineColumn start := by
  induction code generalizing offset i with
  | nil => simp [place] at found
  | cons first rest ih =>
    cases i with
    | zero =>
      cases found
      exact ⟨first, rfl, rfl⟩
    | succ i => exact ih found

theorem bounds_place (offset : Nat) (code : List Emitted) :
    (∀ e ∈ (place start true offset code).head?, e.placement.boundLeft = offset) ∧
      (∀ e ∈ place start true offset code,
        e.placement.boundRight = e.placement.boundLeft + e.instruction.encodedSize ∧
        e.placement.boundRight ≤ offset + bytes code) ∧
      (place start true offset code).IsChain fun e e' =>
        e.placement.boundRight = e'.placement.boundLeft := by
  induction code generalizing offset with
  | nil => simp [place]
  | cons e rest ih =>
    obtain ⟨first, within, chain⟩ := ih (offset + e.instruction.encodedSize)
    have total : bytes (e :: rest) = e.instruction.encodedSize + bytes rest := List.sum_cons
    rw [place]
    refine ⟨fun e' head => ?_, fun e' mem => ?_, List.isChain_cons.mpr ⟨fun e' head => ?_, chain⟩⟩
    · cases head
      rfl
    · rcases List.mem_cons.mp mem with rfl | mem
      · exact ⟨rfl, by simp [total]⟩
      · exact ⟨(within e' mem).1, by have := (within e' mem).2; omega⟩
    · exact (first e' head).symm

theorem unbounded_place {e : Emitted} (mem : e ∈ place start false offset code) :
    e.placement.boundLeft = 0 ∧ e.placement.boundRight = 0 := by
  induction code generalizing offset with
  | nil => cases mem
  | cons first rest ih =>
    rcases List.mem_cons.mp mem with rfl | mem
    · exact ⟨rfl, rfl⟩
    · exact ih mem

/-! ## Annotated code -/

theorem bytes_eq_of_content {code' : List Emitted}
    (same : code.map content = code'.map content) : bytes code = bytes code' := by
  have sizes := congrArg (List.map fun c => c.1.encodedSize) same
  rw [List.map_map, List.map_map] at sizes
  exact congrArg List.sum sizes

theorem laidOut_place (fits : bytes code < 2 ^ 32) :
    LaidOut start debugMode code (place start debugMode 0 (settleLabels code)) := by
  have total := bytes_eq_of_content (map_content_settleLabels code)
  obtain ⟨first, within, chain⟩ := @bounds_place start 0 (settleLabels code)
  refine ⟨?_, ?_, ?_, ?_, ?_, ?_, ?_⟩
  · rw [map_content_place, map_content_settleLabels]
  · rintro rfl
    exact first
  · rintro rfl
    exact fun e mem => (within e mem).1
  · rintro rfl
    exact chain
  · intro e mem
    cases debugMode with
    | false =>
      rw [(unbounded_place mem).2]
      decide
    | true =>
      have bound := (within e mem).2
      omega
  · rintro rfl
    exact fun e => unbounded_place
  · intro i e found
    obtain ⟨old, before, same⟩ := placement_place found
    rw [same, ← origin_settleLabels before]
    cases old.origin <;> rfl

/-- Code that can be encoded in 32 bits is laid out, and laying it out again changes nothing. -/
theorem annotate_laidOut (start : Position) (debugMode : Bool)
    (encodable : ∀ e ∈ code, e.instruction.isEncodable = true) (fits : bytes code < 2 ^ 32) :
    ∃ placed, annotate start debugMode code = .ok placed ∧ LaidOut start debugMode code placed ∧
      annotate start debugMode placed = .ok placed := by
  have laid : LaidOut start debugMode code _ := laidOut_place fits
  have all : (code.all fun e => e.instruction.isEncodable) = true := List.all_eq_true.mpr encodable
  have all' : ((place start debugMode 0 (settleLabels code)).all fun e =>
      e.instruction.isEncodable) = true := by
    have same := congrArg (List.all · fun c => c.1.isEncodable) laid.content
    simp only [List.all_map] at same
    exact same.trans all
  refine ⟨_, if_pos all, laid, (if_pos all').trans ?_⟩
  rw [settleLabels_place 0 (settleLabels_settleLabels code), place_place]

theorem annotate_laidOut_label :
    bytes [⟨.label ⟨0⟩, .nowhere, {}⟩, ⟨.return, .functionStart, {}⟩] < 2 ^ 32 ∧
      ∃ placed, annotate ⟨3, 4⟩ true [⟨.label ⟨0⟩, .nowhere, {}⟩, ⟨.return, .functionStart, {}⟩] =
        .ok placed ∧ annotate ⟨3, 4⟩ true placed = .ok placed := by
  have fits : bytes [⟨.label ⟨0⟩, .nowhere, {}⟩, ⟨.return, .functionStart, {}⟩] < 2 ^ 32 := by decide
  obtain ⟨placed, done, -, again⟩ := annotate_laidOut ⟨3, 4⟩ true (by decide) fits
  exact ⟨fits, placed, done, again⟩

end Emitted

end AccScript
