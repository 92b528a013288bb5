import AccScript.Assembler.Access
import AccScript.Proofs.Code.Links
import AccScript.Proofs.Code.Operands

/-!
# Spellings of big integers

A natural number has many literals: in four radixes, with letters in either case, with leading
zeros, with underscores between the digits, with or without the suffix.  All of them are loaded
from the same string, the decimal digits of the number, and literals of different numbers never
are.
-/

namespace AccScript.Radix

variable {radix d n : Nat} {c : Char} {text : List Char}

/-- A digit; letters may be of either case. -/
def IsDigit (radix d : Nat) (c : Char) : Prop :=
  d < radix ∧ (c = d.digitChar ∨ c = d.digitChar.toUpper)

/-- Digits, the most significant first, with underscores between them. -/
inductive Digits (radix : Nat) : List Char → Nat → Prop
  | single {d : Nat} {c : Char} : IsDigit radix d c → Digits radix [c] d
  | append {text : List Char} {n d : Nat} {c : Char} (underscores : Nat) :
      Digits radix text n → IsDigit radix d c →
      Digits radix (text ++ List.replicate underscores '_' ++ [c]) (n * radix + d)

/-- The radixes and their marks. -/
def marks : List (Nat × String) :=
  [(10, ""), (2, "0b"), (2, "0B"), (8, "0o"), (8, "0O"), (16, "0x"), (16, "0X")]

/-- A literal and its value. -/
inductive Spelled : String → Nat → Prop
  | literal {radix n : Nat} {mark suffix : String} {text : List Char} :
      (radix, mark) ∈ marks → Digits radix text n → suffix = "" ∨ suffix = "n" →
      Spelled (mark ++ String.ofList text ++ suffix) n

/-! ## Digits -/

/-- What the reader takes for a digit. -/
def Reads (radix : Nat) (c : Char) : Prop :=
  ∃ d < radix, digitValue? c = some d

theorem IsDigit.value (small : radix ≤ 16) (h : IsDigit radix d c) : digitValue? c = some d := by
  have all : ∀ d < 16, digitValue? d.digitChar = some d ∧ digitValue? d.digitChar.toUpper = some d := by
    decide
  obtain ⟨lt, rfl | rfl⟩ := h
  · exact (all d (Nat.lt_of_lt_of_le lt small)).1
  · exact (all d (Nat.lt_of_lt_of_le lt small)).2

theorem readDigits?_append (value : Nat) (xs ys : List Char) :
    readDigits? radix value (xs ++ ys) =
      (readDigits? radix value xs).bind (readDigits? radix · ys) := by
  induction xs generalizing value with
  | nil => rfl
  | cons c xs ih =>
    rw [List.cons_append, readDigits?, readDigits?]
    split
    · exact ih value
    · split
      · split
        · exact ih _
        · rfl
      · rfl

theorem readDigits?_singleton (small : radix ≤ 16) (h : IsDigit radix d c) (value : Nat) :
    readDigits? radix value [c] = some (value * radix + d) := by
  have other : c ≠ '_' := by
    rintro rfl
    cases h.value small
  simp [readDigits?, other, h.value small, h.1]

/-- Without the underscores, digits are read to their value. -/
theorem Digits.read (small : radix ≤ 16) (h : Digits radix text n) :
    text.filter (· ≠ '_') ≠ [] ∧ (∀ c ∈ text.filter (· ≠ '_'), Reads radix c) ∧
      (∃ c ∈ text.getLast?, Reads radix c) ∧
      readDigits? radix 0 (text.filter (· ≠ '_')) = some n := by
  have plain : ∀ {d c}, IsDigit radix d c → [c].filter (· ≠ '_') = [c] := by
    intro d c digit
    have other : c ≠ '_' := by
      rintro rfl
      cases digit.value small
    simp [other]
  induction h with
  | @single d c digit =>
    have reads : Reads radix c := ⟨d, digit.1, digit.value small⟩
    have value := readDigits?_singleton small digit 0
    rw [plain digit]
    refine ⟨List.cons_ne_nil c [], ?_, ⟨c, rfl, reads⟩, by simpa using value⟩
    simpa using reads
  | @append text n d c underscores _ digit ih =>
    obtain ⟨-, all, -, value⟩ := ih
    have reads : Reads radix c := ⟨d, digit.1, digit.value small⟩
    have stripped : (text ++ List.replicate underscores '_' ++ [c]).filter (· ≠ '_') =
        text.filter (· ≠ '_') ++ [c] := by
      rw [List.filter_append, List.filter_append, plain digit]
      simp
    rw [stripped]
    refine ⟨by simp, fun x mem => ?_, ⟨c, by simp, reads⟩, ?_⟩
    · rcases List.mem_append.mp mem with mem | mem
      · exact all x mem
      · exact List.mem_singleton.mp mem ▸ reads
    · rw [readDigits?_append, value]
      exact readDigits?_singleton small digit n

theorem readInt?_of_digits {digits : List Char} (some_digit : digits ≠ [])
    (all : ∀ c ∈ digits, Reads radix c) :
    readInt? radix digits = (readDigits? radix 0 digits).map fun n => (n : Int) := by
  cases digits with
  | nil => exact absurd rfl some_digit
  | cons c rest =>
    obtain ⟨d, -, value⟩ := all c (.head _)
    have apart : c ≠ '-' ∧ c ≠ '+' ∧ c ≠ '_' := by
      refine ⟨?_, ?_, ?_⟩ <;> (rintro rfl; cases value)
    unfold readInt?
    split
    · simp_all
    · simp_all
    · simp [readNat?, apart]

/-! ## Literals -/

theorem splitMark_of_digits {digits : List Char} (all : ∀ c ∈ digits, Reads 10 c) :
    splitMark digits = (10, digits) := by
  unfold splitMark
  split
  case h_7 => rfl
  -- A letter behind the zero is no decimal digit.
  all_goals
    obtain ⟨d, lt, value⟩ := all _ (.tail _ (.head _))
    cases value
    exact absurd lt (by decide)

theorem literalDigits_of_digits {mark suffix : String} (known : (radix, mark) ∈ marks)
    (small : radix ≤ 16) (h : Digits radix text n) (ends : suffix = "" ∨ suffix = "n") :
    literalDigits (mark ++ String.ofList text ++ suffix) =
      mark.toList ++ text.filter (· ≠ '_') := by
  obtain ⟨-, -, ⟨c, last, d, lt, value⟩, -⟩ := h.read small
  have digit : c ≠ 'n' := by
    rintro rfl
    cases value
    exact absurd (Nat.lt_of_lt_of_le lt small) (by decide)
  have plain : ∀ c ∈ mark.toList, c ≠ '_' := by
    have all : ∀ m ∈ marks, ∀ c ∈ m.2.toList, c ≠ '_' := by simp [marks]
    exact all _ known
  have body : (mark.toList ++ text).getLast? = some c := by
    rw [List.getLast?_append, last]
    rfl
  unfold literalDigits
  rcases ends with rfl | rfl
  · simpa [body, digit] using plain
  · simpa using plain

theorem readMarked?_of_spelled {literal : String} (h : Spelled literal n) :
    readMarked? (literalDigits literal) = some (n : Int) := by
  obtain @⟨radix, n, mark, suffix, text, known, digits, ends⟩ := h
  have small : radix ≤ 16 := by
    have all : ∀ m ∈ marks, m.1 ≤ 16 := by decide
    exact all _ known
  obtain ⟨some_digit, all, -, value⟩ := digits.read small
  have split : splitMark (mark.toList ++ text.filter (· ≠ '_')) =
      (radix, text.filter (· ≠ '_')) := by
    simp only [marks, List.mem_cons, Prod.mk.injEq, List.not_mem_nil, or_false] at known
    rcases known with ⟨rfl, rfl⟩ | ⟨rfl, rfl⟩ | ⟨rfl, rfl⟩ | ⟨rfl, rfl⟩ | ⟨rfl, rfl⟩ | ⟨rfl, rfl⟩ |
      ⟨rfl, rfl⟩
    · exact splitMark_of_digits all
    all_goals rfl
  rw [readMarked?, literalDigits_of_digits known small digits ends, split,
    readInt?_of_digits some_digit all, value]
  rfl

/-! ## Loading -/

/-- The literal is loaded by an instruction that names this string. -/
def LoadedFrom (literal : String) (a : Assembler) (s : String) : Prop :=
  ∃ id e a', (Asm.loadBigInt literal).run a = .ok ((), a') ∧ a'.code = a.code.push e ∧
    e.instruction = .ldBigInt id ∧ a'.strings[id.index]? = some s

theorem loadedFrom_toString {literal : String} (h : Spelled literal n) (a : Assembler) :
    LoadedFrom literal a (toString n) := by
  unfold LoadedFrom Asm.loadBigInt
  rw [readMarked?_of_spelled h]
  exact ⟨_, _, _, rfl, rfl, rfl, Tables.getElem?_insertNew a.strings (toString n)⟩

/-- Every literal of a number is loaded from the number's decimal digits, whatever the spelling, and
literals of different numbers are loaded from different strings. -/
theorem loadedFrom_spelled {literal literal' : String} {n n' : Nat} (h : Spelled literal n)
    (h' : Spelled literal' n') (a a' : Assembler) :
    ∃ s s', LoadedFrom literal a s ∧ LoadedFrom literal' a' s' ∧ s = toString n ∧
      (s = s' ↔ n = n') :=
  ⟨toString n, toString n', loadedFrom_toString h a, loadedFrom_toString h' a', rfl,
    eq_of_toString, congrArg toString⟩

theorem loadedFrom_spelled_fifteen :
    Spelled "0x0_Fn" 15 ∧ Spelled "15" 15 ∧ ∃ s s', LoadedFrom "0x0_Fn" {} s ∧
      LoadedFrom "15" {} s' ∧ s = toString 15 ∧ (s = s' ↔ 15 = 15) := by
  have zero : IsDigit 16 0 '0' := ⟨by decide, .inl rfl⟩
  have fifteen : IsDigit 16 15 'F' := ⟨by decide, .inr rfl⟩
  have one : IsDigit 10 1 '1' := ⟨by decide, .inl rfl⟩
  have five : IsDigit 10 5 '5' := ⟨by decide, .inl rfl⟩
  have hexadecimal : Spelled "0x0_Fn" 15 :=
    @Spelled.literal 16 15 "0x" "n" ['0', '_', 'F'] (by decide) (.append 1 (.single zero) fifteen)
      (.inr rfl)
  have decimal : Spelled "15" 15 :=
    @Spelled.literal 10 15 "" "" ['1', '5'] (by decide) (.append 0 (.single one) five) (.inl rfl)
  exact ⟨hexadecimal, decimal, loadedFrom_spelled hexadecimal decimal {} {}⟩

end AccScript.Radix
