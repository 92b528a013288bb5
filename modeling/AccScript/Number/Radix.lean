/-!
# Digits in a radix

Reading of big integer literals. The digits may carry a radix mark `0b`, `0o` or `0x`, one sign
after the mark, and underscores after the first digit.
-/

namespace AccScript.Radix

def digitValue? (c : Char) : Option Nat :=
  if '0' ≤ c ∧ c ≤ '9' then some (c.toNat - '0'.toNat)
  else if 'a' ≤ c ∧ c ≤ 'z' then some (c.toNat - 'a'.toNat + 10)
  else if 'A' ≤ c ∧ c ≤ 'Z' then some (c.toNat - 'A'.toNat + 10)
  else none

/-- Appends the digits to `value`, most significant first, passing over underscores. -/
def readDigits? (radix : Nat) (value : Nat) : List Char → Option Nat
  | [] => some value
  | c :: rest =>
      if c = '_' then readDigits? radix value rest
      else match digitValue? c with
        | some d => if d < radix then readDigits? radix (value * radix + d) rest else none
        | none => none

/-- A natural number: at least one character, and no underscore in front. -/
def readNat? (radix : Nat) : List Char → Option Nat
  | [] => none
  | c :: rest => if c = '_' then none else readDigits? radix 0 (c :: rest)

/-- An integer with at most one sign. -/
def readInt? (radix : Nat) : List Char → Option Int
  | '-' :: rest => (readNat? radix rest).map fun n => -(n : Int)
  | '+' :: rest => (readNat? radix rest).map fun n => (n : Int)
  | digits => (readNat? radix digits).map fun n => (n : Int)

/-- The radix of a literal and the digits after its mark. -/
def splitMark : List Char → Nat × List Char
  | '0' :: 'b' :: rest => (2, rest)
  | '0' :: 'B' :: rest => (2, rest)
  | '0' :: 'o' :: rest => (8, rest)
  | '0' :: 'O' :: rest => (8, rest)
  | '0' :: 'x' :: rest => (16, rest)
  | '0' :: 'X' :: rest => (16, rest)
  | digits => (10, digits)

/-- The integer that the digits of a big integer literal stand for. -/
def readMarked? (digits : List Char) : Option Int :=
  readInt? (splitMark digits).1 (splitMark digits).2

/-- The digits of a literal as written in source: without the suffix `n` and the underscores. -/
def literalDigits (literal : String) : List Char :=
  let chars := literal.toList
  let body := if chars.getLast? = some 'n' then chars.dropLast else chars
  body.filter (· ≠ '_')

end AccScript.Radix
