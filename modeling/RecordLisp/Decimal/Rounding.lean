import RecordLisp.Decimal.Basic

/-!
# Rounding to the nearest decimal

`Decimal.nearest` is the only place where precision is lost. It takes an exact non-negative quotient
of units of `2^-149` and gives the nearest decimal, a half going to the neighbour with an even
place.
-/

namespace RecordLisp

/-- The quotient rounded to a whole number, a half to the even neighbour. -/
def roundHalfEven (numerator denominator : Nat) : Nat :=
  let quotient := numerator / denominator
  let excess := 2 * (numerator % denominator)
  if excess < denominator then quotient
  else if denominator < excess then quotient + 1
  else quotient + quotient % 2

/-- Division by one is exact. -/
@[simp] theorem roundHalfEven_one (numerator : Nat) : roundHalfEven numerator 1 = numerator := by
  simp [roundHalfEven, Nat.mod_one]

/-- Place of the magnitude nearest to `numerator / denominator` units. It can lie beyond the last
finite magnitude. -/
def nearestPlace (numerator denominator : Nat) : Nat :=
  let exponent := Nat.log2 (numerator / denominator) - 23
  exponent * 2 ^ 23 + roundHalfEven numerator (denominator * 2 ^ exponent)

namespace Decimal

/-- The decimal nearest to `numerator / denominator` units of `2^-149`. Beyond the largest finite
magnitude it is an infinity. -/
def nearest (negative : Bool) (numerator denominator : Nat) : Decimal :=
  let place := nearestPlace numerator denominator
  if inRange : place < 0x7F800000 then .finite negative ⟨place, inRange⟩ else .infinite negative

/-- The decimal nearest to `digits * 10^exponent`. -/
def ofScientific (negative : Bool) (digits : Nat) (exponent : Int) : Decimal :=
  match exponent with
  | .ofNat e => nearest negative (digits * 10 ^ e * 2 ^ 149) 1
  | .negSucc e => nearest negative (digits * 2 ^ 149) (10 ^ (e + 1))

end Decimal

end RecordLisp
