import RecordLisp.Power

/-!
# Decimals of the language

A decimal is a binary floating-point number with a 24-bit significand: a signed finite magnitude, a
signed infinity, or the undefined value. All undefined values behave alike, so there is one of them.

A finite magnitude is held as its place in the increasing list of all finite magnitudes, which is
also its bit pattern without the sign. Every finite magnitude is a whole number of units of
`2^-149`, the smallest positive one, so arithmetic is exact arithmetic on units followed by one
rounding.
-/

namespace RecordLisp

/-- Place of a finite magnitude among all finite magnitudes, zero first. -/
abbrev Magnitude := Fin 0x7F800000

/-- A floating-point number with a 24-bit significand. -/
inductive Decimal where
  | nan
  | infinite (negative : Bool)
  | finite (negative : Bool) (magnitude : Magnitude)
deriving DecidableEq

namespace Magnitude

/-- The magnitude of zero. -/
def zero : Magnitude := ⟨0, by decide⟩

/-- Binary exponent of a magnitude, counted in units of `2^-149`. -/
def exponent (magnitude : Magnitude) : Nat := magnitude.val / 2 ^ 23 - 1

/-- The magnitude as a number of units of `2^-149`. -/
def units (magnitude : Magnitude) : Nat :=
  (magnitude.val - magnitude.exponent * 2 ^ 23) * 2 ^ magnitude.exponent

end Magnitude

namespace Decimal

instance : Inhabited Decimal := ⟨.nan⟩

/-- Positive zero. -/
def zero : Decimal := .finite false .zero

/-- Negative zero. -/
def negativeZero : Decimal := .finite true .zero

/-- Whether the decimal is neither infinite nor undefined. -/
def isFinite : Decimal → Bool
  | .finite _ _ => true
  | _ => false

/-- The decimal with a 32-bit pattern: a sign bit above the place of the magnitude. -/
def ofBits (bits : Nat) : Decimal :=
  let negative := bits / 2 ^ 31 % 2 == 1
  let place := bits % 2 ^ 31
  if inRange : place < 0x7F800000 then .finite negative ⟨place, inRange⟩
  else if place = 0x7F800000 then .infinite negative
  else .nan

/-- The 32-bit pattern of a decimal. An undefined value has many and gives none. -/
def bits? : Decimal → Option Nat
  | .nan => none
  | .infinite negative => some (negative.toNat * 2 ^ 31 + 0x7F800000)
  | .finite negative magnitude => some (negative.toNat * 2 ^ 31 + magnitude.val)

/-- Place of a decimal in the numeric order. Both zeros have place zero and an undefined value has
none. -/
def rank? : Decimal → Option Int
  | .nan => none
  | .infinite negative => some (if negative then -0x7F800000 else 0x7F800000)
  | .finite negative magnitude => some (if negative then -magnitude.val else magnitude.val)

/-- Numeric equality: the two zeros are equal and an undefined value equals nothing. -/
def same (a b : Decimal) : Bool :=
  match a.rank?, b.rank? with
  | some x, some y => x == y
  | _, _ => false

/-- Numeric order: false when either side is undefined. -/
def less (a b : Decimal) : Bool :=
  match a.rank?, b.rank? with
  | some x, some y => x < y
  | _, _ => false

end Decimal

end RecordLisp
