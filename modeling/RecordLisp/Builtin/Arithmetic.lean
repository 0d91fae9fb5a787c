import RecordLisp.Eval.Argument

/-!
# Arithmetic

Integers stay integers, and a result out of their range is a trap. One decimal operand makes the
whole operation a decimal one, which follows the rules of floating-point arithmetic.
-/

namespace RecordLisp.Builtin

/-- The trap of a result out of range. -/
def overflow (operator : String) (a b : Integer) : EvalError :=
  .arithmeticTrap (operator ++ ": " ++ a.text ++ " " ++ operator ++ " " ++ b.text ++ " overflows")

/-- A result that has to be in range. -/
def checked (operator : String) (a b : Integer) (result : Int) : Except EvalError Integer :=
  match Integer.ofInt? result with
  | some result => .ok result
  | none => .error (overflow operator a b)

/-- The numbers of the arguments, the first at a position. -/
def numbersFrom (operator : String) : Nat → List Atom → Except EvalError (List Number)
  | _, [] => .ok []
  | position, value :: values => do
      let number ← ArgumentPlace.number ⟨operator, position⟩ value
      return number :: (← numbersFrom operator (position + 1) values)

/-- The sum of integers, whose partial sums have to be in range. -/
def sumIntegers : Integer → List Number → Except EvalError Integer
  | total, [] => .ok total
  | total, .integer value :: numbers => do
      sumIntegers (← checked "+" total value (total.val + value.val)) numbers
  | total, .decimal _ :: numbers => sumIntegers total numbers

/-- The sum of all values. -/
def sum (values : Atom) : Except EvalError Atom := do
  let values ← ArgumentPlace.list ⟨"+", 1⟩ values
  let numbers ← numbersFrom "+" 1 values
  if numbers.any Number.isDecimal then
    return .decimal (Decimal.sum (numbers.map Number.toDecimal))
  else return .integer (← sumIntegers .zero numbers)

/-- An operation on two numbers of either kind. -/
def arithmetic (operator : String) (integer : Integer → Integer → Except EvalError Integer)
    (decimal : Decimal → Decimal → Decimal) (a b : Atom) : Except EvalError Atom := do
  let a ← ArgumentPlace.number ⟨operator, 1⟩ a
  let b ← ArgumentPlace.number ⟨operator, 2⟩ b
  match a, b with
  | .integer a, .integer b => return .integer (← integer a b)
  | a, b => return .decimal (decimal a.toDecimal b.toDecimal)

/-- The difference of two numbers. -/
def difference : Atom → Atom → Except EvalError Atom :=
  arithmetic "-" (fun a b => checked "-" a b (a.val - b.val)) Decimal.sub

/-- The product of two numbers. -/
def product : Atom → Atom → Except EvalError Atom :=
  arithmetic "*" (fun a b => checked "*" a b (a.val * b.val)) Decimal.mul

/-- The quotient of two integers, cut off toward zero. -/
def divideIntegers (a b : Integer) : Except EvalError Integer :=
  if b.val = 0 then .error (.arithmeticTrap ("/: " ++ a.text ++ " divided by zero"))
  else checked "/" a b (a.val.tdiv b.val)

/-- The quotient of two numbers. -/
def quotient : Atom → Atom → Except EvalError Atom := arithmetic "/" divideIntegers Decimal.div

/-- A comparison of two numbers. -/
def comparison (operator : String) (integer : Int → Int → Bool) (decimal : Decimal → Decimal → Bool)
    (a b : Atom) : Except EvalError Atom := do
  let a ← ArgumentPlace.number ⟨operator, 1⟩ a
  let b ← ArgumentPlace.number ⟨operator, 2⟩ b
  match a, b with
  | .integer a, .integer b => return .boolean (integer a.val b.val)
  | a, b => return .boolean (decimal a.toDecimal b.toDecimal)

/-- Whether the first number is less than the second. -/
def less : Atom → Atom → Except EvalError Atom :=
  comparison "<" (fun a b => a < b) Decimal.less

/-- Whether the first number is greater than the second. -/
def greater : Atom → Atom → Except EvalError Atom :=
  comparison ">" (fun a b => b < a) (fun a b => b.less a)

/-- A random integer from `least` on and below `bound`. The two may be the same and are then the
result. -/
def random (least bound : Atom) : EvalM Atom := do
  let least ← ArgumentPlace.integer ⟨"rand", 1⟩ least
  let bound ← ArgumentPlace.integer ⟨"rand", 2⟩ bound
  if bound.val < least.val then
    EvalM.fail (.runtime
      ("rand: min " ++ least.text ++ " is greater than max " ++ bound.text))
  else if least.val = bound.val then return .integer least
  else return .integer (← EvalM.draw least bound)

end RecordLisp.Builtin
