/-!
# Double-precision numbers

A number is kept as its 64 bits and read as an exact dyadic value `± m * 2 ^ e`, so every
question the compiler asks about it (is it an integer, does it fit a word) is a question about
natural numbers.
-/

namespace AccScript

/-- A double-precision number, given by its bits. -/
structure Binary64 where
  bits : UInt64
deriving DecidableEq, Repr, Inhabited

namespace Binary64

/-- What the bits stand for, the sign apart. -/
inductive Magnitude where
  | nan
  | infinite
  /-- The value `mantissa * 2 ^ exponent`. -/
  | finite (mantissa : Nat) (exponent : Int)
deriving DecidableEq, Repr

def signBit : Nat := 0x8000000000000000

/-- The weight of the bit above the fraction, `2 ^ 52`. -/
def leadingBit : Nat := 0x10000000000000

def isNegative (x : Binary64) : Bool :=
  signBit ≤ x.bits.toNat

def exponentField (x : Binary64) : Nat :=
  x.bits.toNat / leadingBit % 2048

def fractionField (x : Binary64) : Nat :=
  x.bits.toNat % leadingBit

/-- The magnitude; a zero exponent field marks the numbers without a leading one bit. -/
def magnitude (x : Binary64) : Magnitude :=
  if x.exponentField = 2047 then
    if x.fractionField = 0 then .infinite else .nan
  else if x.exponentField = 0 then
    .finite x.fractionField (-1074)
  else
    .finite (leadingBit + x.fractionField) ((x.exponentField : Int) - 1075)

/-- Whether the next smaller number is only half as far away as the next larger one. -/
def hasNarrowGapBelow (x : Binary64) : Bool :=
  x.fractionField = 0 && 1 < x.exponentField

/-- The magnitude as a natural number, if it is one. -/
def natAbs? (x : Binary64) : Option Nat :=
  match x.magnitude with
  | .finite m (.ofNat e) => some (m * Nat.pow 2 e)
  | .finite m (.negSucc e) =>
      if m % Nat.pow 2 (e + 1) = 0 then some (m / Nat.pow 2 (e + 1)) else none
  | _ => none

/-- The value as an integer, if it is one; both zeros give `0`. -/
def toInt? (x : Binary64) : Option Int :=
  x.natAbs?.map fun n => if x.isNegative then -(n : Int) else n

def isNegativeZero (x : Binary64) : Bool :=
  x.isNegative && x.natAbs? = some 0

/-- The value as a signed 32-bit integer, if it is one other than negative zero. -/
def toInt32? (x : Binary64) : Option Int :=
  match x.toInt? with
  | some n =>
      if -0x80000000 ≤ n ∧ n < 0x80000000 ∧ ¬ x.isNegativeZero then some n else none
  | none => none

/-- The number closest to zero among those at most `n`, which is `n` itself below `2 ^ 53`. -/
def ofNat (n : Nat) : Binary64 :=
  if n = 0 then ⟨0⟩
  else
    let top := n.log2
    let mantissa := if top ≤ 52 then n * Nat.pow 2 (52 - top) else n / Nat.pow 2 (top - 52)
    ⟨.ofNat ((top + 1023) * leadingBit + (mantissa - leadingBit))⟩

def neg (x : Binary64) : Binary64 :=
  ⟨.ofNat ((x.bits.toNat + signBit) % 0x10000000000000000)⟩

/-- The number with integer value `n`, for `n` below `2 ^ 53` in magnitude. -/
def ofInt : Int → Binary64
  | .ofNat n => ofNat n
  | .negSucc n => neg (ofNat (n + 1))

end Binary64

end AccScript
