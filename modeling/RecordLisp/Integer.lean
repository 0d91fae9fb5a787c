/-!
# Integers of the language

An integer value is a mathematical integer between `-2^31` and `2^31 - 1`. Arithmetic on such values
is done on `Int` and brought back by `Integer.ofInt?`, which refuses a result outside the range.
Nothing wraps.
-/

namespace RecordLisp

/-- An integer of the language: a whole number that fits in 32 bits with a sign. -/
structure Integer where
  val : Int
  minimum_le : -2147483648 ≤ val
  le_maximum : val ≤ 2147483647
deriving DecidableEq

namespace Integer

/-- Largest value. -/
def maximum : Integer := ⟨2147483647, by decide, by decide⟩

/-- Smallest value. -/
def minimum : Integer := ⟨-2147483648, by decide, by decide⟩

/-- Zero, which stands for false. -/
def zero : Integer := ⟨0, by decide, by decide⟩

/-- One, which stands for true. -/
def one : Integer := ⟨1, by decide, by decide⟩

instance : Inhabited Integer := ⟨zero⟩

@[ext] theorem ext {a b : Integer} (same : a.val = b.val) : a = b := by
  cases a; cases b; cases same; rfl

/-- The value `n`, when it is in range. -/
def ofInt? (n : Int) : Option Integer :=
  if range : -2147483648 ≤ n ∧ n ≤ 2147483647 then some ⟨n, range.1, range.2⟩ else none

/-- The value in range that is closest to `n`. -/
def clamp (n : Int) : Integer :=
  (ofInt? n).getD (if n < 0 then minimum else maximum)

/-- The sum of two values, or the value in range that is closest to it. -/
def addClamped (a b : Integer) : Integer := clamp (a.val + b.val)

/-- The value as a natural number, when it is not negative. -/
def toNat? (a : Integer) : Option Nat := if 0 ≤ a.val then some a.val.toNat else none

@[simp] theorem ofInt?_val (a : Integer) : ofInt? a.val = some a := by
  simp [ofInt?, a.minimum_le, a.le_maximum]

theorem ofInt?_eq_some_iff {n : Int} {a : Integer} : ofInt? n = some a ↔ a.val = n := by
  constructor
  · intro accepted
    unfold ofInt? at accepted
    split at accepted
    · cases accepted; rfl
    · contradiction
  · rintro rfl
    exact ofInt?_val a

theorem ofInt?_eq_none_iff {n : Int} :
    ofInt? n = none ↔ n < -2147483648 ∨ 2147483647 < n := by
  unfold ofInt?
  split <;> simp <;> omega

/-- The decimal text, with a minus sign for a negative value. -/
def text (a : Integer) : String :=
  match a.val with
  | .ofNat n => n.repr
  | .negSucc n => "-" ++ (n + 1).repr

end Integer

end RecordLisp
