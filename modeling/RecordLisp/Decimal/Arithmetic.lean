import RecordLisp.Decimal.Rounding
import RecordLisp.Integer

/-!
# Decimal arithmetic

Sum, difference, product and quotient, each exact up to one rounding, with the usual rules for
infinities, undefined results and the sign of zero; and the conversions between integers and
decimals.
-/

namespace RecordLisp.Decimal

/-- A finite value as a signed number of units. -/
def signedUnits (negative : Bool) (magnitude : Magnitude) : Int :=
  if negative then -magnitude.units else magnitude.units

/-- The decimal with the opposite sign. -/
def negate : Decimal → Decimal
  | .nan => .nan
  | .infinite negative => .infinite !negative
  | .finite negative magnitude => .finite (!negative) magnitude

/-- Sum. An exact zero is negative only when both operands are. -/
def add : Decimal → Decimal → Decimal
  | .nan, _ | _, .nan => .nan
  | .infinite a, .infinite b => if a == b then .infinite a else .nan
  | .infinite a, .finite _ _ => .infinite a
  | .finite _ _, .infinite b => .infinite b
  | .finite a m, .finite b n =>
      let total := signedUnits a m + signedUnits b n
      nearest (if total = 0 then a && b else total < 0) total.natAbs 1

/-- Difference. -/
def sub (a b : Decimal) : Decimal := a.add b.negate

/-- Product. Zero times an infinity is undefined. -/
def mul : Decimal → Decimal → Decimal
  | .nan, _ | _, .nan => .nan
  | .infinite a, .infinite b => .infinite (a != b)
  | .infinite a, .finite b n => if n.val = 0 then .nan else .infinite (a != b)
  | .finite a m, .infinite b => if m.val = 0 then .nan else .infinite (a != b)
  | .finite a m, .finite b n => nearest (a != b) (m.units * n.units) (2 ^ 149)

/-- Quotient. A nonzero value over zero is infinite, and zero over zero is undefined. -/
def div : Decimal → Decimal → Decimal
  | .nan, _ | _, .nan => .nan
  | .infinite _, .infinite _ => .nan
  | .infinite a, .finite b _ => .infinite (a != b)
  | .finite a _, .infinite b => .finite (a != b) .zero
  | .finite a m, .finite b n =>
      if n.val = 0 then (if m.val = 0 then .nan else .infinite (a != b))
      else nearest (a != b) (m.units * 2 ^ 149) n.units

/-- Sum of a list from left to right. The empty sum is negative zero, which changes no other
summand. -/
def sum (values : List Decimal) : Decimal := values.foldl add negativeZero

/-- The decimal nearest to an integer. -/
def ofInteger (n : Integer) : Decimal := nearest (n.val < 0) (n.val.natAbs * 2 ^ 149) 1

/-- The integer part, clamped to the range of integers. An undefined value gives zero. -/
def toInteger : Decimal → Integer
  | .nan => .zero
  | .infinite negative => if negative then .minimum else .maximum
  | .finite negative magnitude =>
      let whole := Int.ofNat (magnitude.units / 2 ^ 149)
      .clamp (if negative then -whole else whole)

end RecordLisp.Decimal
