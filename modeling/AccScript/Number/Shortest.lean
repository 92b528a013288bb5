import AccScript.Number.Binary64

/-!
# Shortest decimals

The reals that round to a given finite number form an interval. The shortest decimal of the
number is the point of the coarsest decimal grid `10 ^ k` that meets this interval; of two such
points the one nearer to the number is taken. A format decides the exact ties.
-/

namespace AccScript

/-- The decimal `digits * 10 ^ exponent`. -/
structure Decimal where
  digits : Nat
  exponent : Int
deriving DecidableEq, Repr

/-- Which of two equally near grid points is taken. -/
inductive TieRule where
  | upward
  | toEven
deriving DecidableEq, Repr

namespace Decimal

/-- The value and its rounding interval on the grid `10 ^ k`: all four numbers are in units of
`1 / grid` of a grid step. -/
structure Window where
  grid : Nat
  value : Nat
  lower : Nat
  upper : Nat
  /-- Whether the ends of the interval round to the value too. -/
  closed : Bool

def window (m : Nat) (e : Int) (narrowBelow : Bool) (k : Int) : Window :=
  let unit := Nat.pow 2 (e - 2).toNat * Nat.pow 10 (-k).toNat
  { grid := Nat.pow 10 k.toNat * Nat.pow 2 (2 - e).toNat
    value := 4 * m * unit
    lower := (4 * m - if narrowBelow then 1 else 2) * unit
    upper := (4 * m + 2) * unit
    closed := m % 2 = 0 }

def Window.contains (w : Window) (x : Nat) : Bool :=
  if w.closed then w.lower ≤ x && x ≤ w.upper else w.lower < x && x < w.upper

/-- The grid point nearest to the value that lies in the interval, if one does. -/
def Window.nearest? (w : Window) (tie : TieRule) : Option Nat :=
  let below := w.value / w.grid
  let above := below + 1
  let remainder := w.value % w.grid
  match w.contains (below * w.grid), w.contains (above * w.grid) with
  | true, true =>
      if 2 * remainder < w.grid then some below
      else if w.grid < 2 * remainder then some above
      else match tie with
        | .upward => some above
        | .toEven => if below % 2 = 0 then some below else some above
  | true, false => some below
  | false, true => some above
  | false, false => none

/-- Tries `steps` grids downward from `10 ^ k`. -/
def search (m : Nat) (e : Int) (narrowBelow : Bool) (tie : TieRule) :
    Nat → Int → Decimal
  | 0, k => ⟨(window m e narrowBelow k).value / (window m e narrowBelow k).grid, k⟩
  | steps + 1, k =>
      match (window m e narrowBelow k).nearest? tie with
      | some digits => ⟨digits, k⟩
      | none => search m e narrowBelow tie steps (k - 1)

/-- The shortest decimal of `m * 2 ^ e`. The first grid is coarser than the value; seventeen
digits always reach the interval. -/
def shortest (m : Nat) (e : Int) (narrowBelow : Bool) (tie : TieRule) : Decimal :=
  if m = 0 then ⟨0, 0⟩
  else search m e narrowBelow tie 24 (((m.log2 : Int) + 1 + e) * 30103 / 100000 + 2)

end Decimal

end AccScript
