import RecordLisp.Decimal.Rounding

/-!
# Decimal text

A finite decimal is written with the fewest significant digits that read back as the same value, and
among those the nearest. Of two equally near candidates the larger magnitude is taken. The text
never has an exponent, and always has a point.

The search tries the two neighbours of the value on ever finer decimal grids and accepts a neighbour
only after reading it back, so the accepted digits denote the value by construction. Nine digits
always suffice; should the search end without a hit, the exact expansion stands in.
-/

namespace RecordLisp

/-- A number `digits * 10^exponent`. -/
structure Expansion where
  digits : Nat
  exponent : Int
deriving DecidableEq, Inhabited

namespace Expansion

/-- The exact expansion of a magnitude. -/
def exact (magnitude : Magnitude) : Expansion := ⟨magnitude.units * 5 ^ 149, -149⟩

/-- Whether the expansion reads back as the magnitude. -/
def readsAs (expansion : Expansion) (magnitude : Magnitude) : Bool :=
  Decimal.ofScientific false expansion.digits expansion.exponent == .finite false magnitude

/-- The grid of step `10^exponent` scaled so that the magnitude is `numerator / denominator` steps.
-/
def onGrid (magnitude : Magnitude) (exponent : Int) : Nat × Nat :=
  match exponent with
  | .ofNat e => (magnitude.units, 2 ^ 149 * 10 ^ e)
  | .negSucc e => (magnitude.units * 10 ^ (e + 1), 2 ^ 149)

/-- The neighbour of the magnitude on a grid that reads back, the nearer when both do. -/
def neighbour? (magnitude : Magnitude) (exponent : Int) : Option Expansion :=
  let (numerator, denominator) := onGrid magnitude exponent
  let below : Expansion := ⟨numerator / denominator, exponent⟩
  let above : Expansion := ⟨numerator / denominator + 1, exponent⟩
  let nearerBelow := 2 * (numerator % denominator) < denominator
  match below.readsAs magnitude, above.readsAs magnitude with
  | true, true => some (if nearerBelow then below else above)
  | true, false => some below
  | false, true => some above
  | false, false => none

/-- Least exponent `e` of at least `low` with `value < 10^e`, searched upwards. -/
def leadingExponent (magnitude : Magnitude) : Nat → Int → Int
  | 0, low => low
  | fuel + 1, low =>
      let (numerator, denominator) := onGrid magnitude low
      if numerator < denominator then low else leadingExponent magnitude fuel (low + 1)

/-- First grid with a neighbour that reads back, from `exponent` downwards. -/
def search (magnitude : Magnitude) : Nat → Int → Option Expansion
  | 0, _ => none
  | grids + 1, exponent =>
      (neighbour? magnitude exponent).orElse fun _ => search magnitude grids (exponent - 1)

/-- The shortest expansion that reads back as the magnitude. -/
def shortest (magnitude : Magnitude) : Expansion :=
  let leading := leadingExponent magnitude 84 (-44)
  (search magnitude 9 (leading - 1)).getD (exact magnitude)

/-- The expansion without trailing zeros, using at most `fuel` steps. -/
def trimZeros : Nat → Expansion → Expansion
  | 0, expansion => expansion
  | fuel + 1, expansion =>
      if expansion.digits % 10 = 0 then
        trimZeros fuel ⟨expansion.digits / 10, expansion.exponent + 1⟩
      else expansion

/-- Positional text with a point and at least one digit on each side of it. -/
def text (expansion : Expansion) : String :=
  match expansion.exponent with
  | .ofNat e => (expansion.digits * 10 ^ e).repr ++ ".0"
  | .negSucc e =>
      let places := e + 1
      let fraction := (expansion.digits % 10 ^ places).repr
      (expansion.digits / 10 ^ places).repr ++ "." ++
        String.ofList (List.replicate (places - fraction.length) '0') ++ fraction

end Expansion

namespace Decimal

/-- Text of a finite magnitude. -/
def magnitudeText (magnitude : Magnitude) : String :=
  if magnitude.val = 0 then "0.0"
  else ((Expansion.shortest magnitude).trimZeros 9).text

/-- The text of a decimal. -/
def text : Decimal → String
  | .nan => "NaN"
  | .infinite negative => if negative then "-inf" else "inf"
  | .finite negative magnitude => (if negative then "-" else "") ++ magnitudeText magnitude

end Decimal

end RecordLisp
