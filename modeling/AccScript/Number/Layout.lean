import AccScript.Number.Shortest

/-!
# Number text

A layout says how the shortest decimal of a number is written out. The three layouts of the
compiler are records of one type: `NumberLayout.plain` for property names, `NumberLayout.listing`
for instruction listings and `NumberLayout.json` for serialized records.
-/

namespace AccScript

/-- How a number is written. -/
structure NumberLayout where
  /-- The powers of ten of the leading digit that are written without an exponent. -/
  isPositional : Int → Bool
  /-- Whether a positional integer ends in `.0`. -/
  keepsPoint : Bool
  /-- Whether a positive exponent has a plus sign. -/
  signsExponent : Bool
  tie : TieRule
  nan : String
  infinity : String
  negativeInfinity : String

namespace NumberLayout

/-- Every digit is written, and an integer has no point. -/
def plain : NumberLayout where
  isPositional _ := true
  keepsPoint := false
  signsExponent := false
  tie := .upward
  nan := "NaN"
  infinity := "inf"
  negativeInfinity := "-inf"

/-- Numbers from `1e-4` up to, not including, `1e16` are positional and always show a point. -/
def listing : NumberLayout where
  isPositional e := -4 ≤ e && e < 16
  keepsPoint := true
  signsExponent := false
  tie := .upward
  nan := "NaN"
  infinity := "inf"
  negativeInfinity := "-inf"

/-- Numbers from `1e-5` up to, not including, `1e16` are positional and always show a point;
exponents carry their sign; what is not a number is `null`. -/
def json : NumberLayout where
  isPositional e := -5 ≤ e && e < 16
  keepsPoint := true
  signsExponent := true
  tie := .toEven
  nan := "null"
  infinity := "null"
  negativeInfinity := "null"

def zeros (n : Nat) : String :=
  String.ofList (List.replicate n '0')

/-- The digits with the point after the first `whole` of them; `whole` may lie outside. -/
def positional (layout : NumberLayout) (digits : List Char) (whole : Int) : String :=
  if whole ≤ 0 then
    "0." ++ zeros (-whole).toNat ++ String.ofList digits
  else if digits.length ≤ whole.toNat then
    String.ofList digits ++ zeros (whole.toNat - digits.length) ++
      if layout.keepsPoint then ".0" else ""
  else
    String.ofList (digits.take whole.toNat) ++ "." ++ String.ofList (digits.drop whole.toNat)

/-- One digit, the rest after a point, and the power of ten. -/
def scientific (layout : NumberLayout) (digits : List Char) (exponent : Int) : String :=
  let fraction := if digits.length ≤ 1 then "" else "." ++ String.ofList (digits.drop 1)
  let sign := if layout.signsExponent && 0 ≤ exponent then "+" else ""
  String.ofList (digits.take 1) ++ fraction ++ "e" ++ sign ++ toString exponent

def decimal (layout : NumberLayout) (d : Decimal) : String :=
  let digits := (toString d.digits).toList
  if d.digits = 0 then layout.positional digits 1
  else
    let exponent := d.exponent + digits.length - 1
    if layout.isPositional exponent then layout.positional digits (exponent + 1)
    else layout.scientific digits exponent

def render (layout : NumberLayout) (x : Binary64) : String :=
  match x.magnitude with
  | .nan => layout.nan
  | .infinite => if x.isNegative then layout.negativeInfinity else layout.infinity
  | .finite m e =>
      (if x.isNegative then "-" else "") ++
        layout.decimal (Decimal.shortest m e x.hasNarrowGapBelow layout.tie)

end NumberLayout

namespace Binary64

/-- The nearest signed 64-bit integer to `n`. -/
def clampInt64 (n : Int) : Int :=
  max (-0x8000000000000000) (min n 0x7fffffffffffffff)

/-- The number as a property name: integers below `1e21` in magnitude as signed 64-bit words,
all else in full. -/
def propertyName (x : Binary64) : String :=
  match x.toInt? with
  | some n =>
      if n.natAbs < 1000000000000000000000 then toString (clampInt64 n)
      else NumberLayout.plain.render x
  | none => NumberLayout.plain.render x

end Binary64

end AccScript
