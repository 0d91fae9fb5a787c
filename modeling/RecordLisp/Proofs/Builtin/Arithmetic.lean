import Mathlib.Algebra.Ring.Int.Defs
import Mathlib.Data.List.Basic
import RecordLisp.Builtin.Arithmetic
import RecordLisp.Proofs.Effect

/-!
# Arithmetic is exact or stops

An operation on integers gives the number that mathematics gives, or traps where this number is out
of range or does not exist. A sum goes through its partial sums, so the order of the operands can
matter. What kind of result there is depends only on the kinds of the operands: numbers of both
kinds are looked up in one way by all operations, and the first operand that is no number is the one
that the error names. A random integer lies in its range, whatever source it is drawn from.
-/

namespace RecordLisp

/-! ## Range -/

namespace Integer

/-- Whether a whole number is in the range of the integers of the language. -/
def Fits (n : Int) : Prop := minimum.val ≤ n ∧ n ≤ maximum.val

instance (n : Int) : Decidable (Fits n) := inferInstanceAs (Decidable (_ ∧ _))

theorem fits_val (a : Integer) : Fits a.val := ⟨a.minimum_le, a.le_maximum⟩

theorem ofInt?_of_fits {n : Int} (fits : Fits n) : ∃ a : Integer, a.val = n ∧ ofInt? n = some a :=
  ⟨⟨n, fits.1, fits.2⟩, rfl, dif_pos fits⟩

theorem ofInt?_of_not_fits {n : Int} (outside : ¬ Fits n) : ofInt? n = none := dif_neg outside

end Integer

/-! ## Kinds of operands -/

namespace Atom

/-- Whether the atom is a number of either kind, marked or not. -/
def isNumeric (atom : Atom) : Bool := (Number.ofAtom? atom).isSome

/-- Whether the atom is a decimal, marked or not. -/
def isDecimal (atom : Atom) : Bool := (Number.ofAtom? atom).any Number.isDecimal

/-- Whether the atom is an integer, marked or not. -/
def isInteger (atom : Atom) : Bool := atom.integer?.isSome

theorem ofAtom?_of_integer? {atom : Atom} {value : Integer} (given : atom.integer? = some value) :
    Number.ofAtom? atom = some (.integer value) := by
  unfold integer? at given
  split at given
  · cases given
    rfl
  · cases given

theorem isInteger_iff (atom : Atom) :
    atom.isInteger = true ↔ atom.isNumeric = true ∧ atom.isDecimal = false := by
  unfold isInteger isNumeric isDecimal integer? Number.ofAtom?
  cases atom with
  | leaf modifier value => cases value <;> simp [Number.isDecimal]
  | list | member => simp

end Atom

namespace Builtin

/-! ## Operations on integers -/

/-- Whether a result is the exact one where that is possible, and a trap everywhere else. -/
structure ExactOrTrap (possible : Prop) (exact : Int) (result : Except EvalError Atom) : Prop where
  exact : possible → ∃ value : Integer, value.val = exact ∧ result = .ok (.integer value)
  trap : ¬ possible → ∃ detail, result = .error (.arithmeticTrap detail)

namespace ExactOrTrap

variable {possible : Prop} {exact : Int} {result : Except EvalError Atom}

theorem integer_or_trap (given : ExactOrTrap possible exact result) :
    (∃ value, result = .ok (.integer value)) ∨
    ∃ detail, result = .error (.arithmeticTrap detail) := by
  by_cases possible
  case pos holds =>
    obtain ⟨value, -, succeeds⟩ := given.exact holds
    exact .inl ⟨value, succeeds⟩
  case neg fails => exact .inr (given.trap fails)

end ExactOrTrap

theorem checked_of_fits (operator : String) (a b : Integer) {result : Int}
    (fits : Integer.Fits result) :
    ∃ value : Integer, value.val = result ∧ checked operator a b result = .ok value := by
  obtain ⟨value, same, inRange⟩ := Integer.ofInt?_of_fits fits
  refine ⟨value, same, ?_⟩
  rw [checked, inRange]

theorem checked_of_not_fits {operator : String} {a b : Integer} {result : Int}
    (outside : ¬ Integer.Fits result) :
    checked operator a b result = .error (overflow operator a b) := by
  rw [checked, Integer.ofInt?_of_not_fits outside]

/-- A checked result is the exact one or a trap. -/
theorem checked_exact (operator : String) (a b : Integer) (result : Int) :
    ExactOrTrap (Integer.Fits result) result ((checked operator a b result).map Atom.integer) where
  exact fits := by
    obtain ⟨value, same, succeeds⟩ := checked_of_fits operator a b fits
    exact ⟨value, same, congrArg (Except.map Atom.integer) succeeds⟩
  trap outside := ⟨_, congrArg (Except.map Atom.integer) (checked_of_not_fits outside)⟩

/-- The quotient is the exact one, cut off toward zero, when the divisor is not zero and the
quotient is in range, and a trap otherwise. -/
theorem divideIntegers_exact (a b : Integer) :
    ExactOrTrap (b.val ≠ 0 ∧ Integer.Fits (a.val.tdiv b.val)) (a.val.tdiv b.val)
      ((divideIntegers a b).map Atom.integer) := by
  unfold divideIntegers
  split
  case isTrue zero => exact ⟨fun possible => absurd zero possible.1, fun _ => ⟨_, rfl⟩⟩
  case isFalse nonzero =>
    have quotient := checked_exact "/" a b (a.val.tdiv b.val)
    exact ⟨fun possible => quotient.exact possible.2,
      fun fails => quotient.trap (not_and.mp fails nonzero)⟩

/-- A sum is the exact one when every partial sum is in range, and a trap at the first that is
not. -/
theorem sumIntegers_exact : ∀ (total : Integer) (values : List Integer),
    ExactOrTrap (∀ count, Integer.Fits (total.val + ((values.take count).map Integer.val).sum))
      (total.val + (values.map Integer.val).sum)
      ((sumIntegers total (values.map .integer)).map Atom.integer)
  | total, [] =>
      ⟨fun _ => ⟨total, by simp, rfl⟩, fun outside => absurd (by simp [total.fits_val]) outside⟩
  | total, value :: values => by
      have sums (count : Nat) :
          total.val + (((value :: values).take (count + 1)).map Integer.val).sum =
            total.val + value.val + ((values.take count).map Integer.val).sum := by
        rw [List.take_succ_cons, List.map_cons, List.sum_cons, Int.add_assoc]
      rw [List.map_cons, List.map_cons, sumIntegers, List.sum_cons, ← Int.add_assoc]
      by_cases Integer.Fits (total.val + value.val)
      case pos fits =>
        obtain ⟨next, same, succeeds⟩ := checked_of_fits "+" total value fits
        have rest := sumIntegers_exact next values
        rw [same] at rest
        rw [succeeds]
        refine ⟨fun inRange => rest.exact fun count => ?_,
          fun fails => rest.trap fun inRange => fails ?_⟩
        · rw [← sums]
          exact inRange (count + 1)
        · rintro (_ | count)
          · simpa using total.fits_val
          · rw [sums]
            exact inRange count
      case neg outside =>
        rw [checked_of_not_fits outside]
        refine ⟨fun inRange => absurd ?_ outside, fun _ => ⟨_, rfl⟩⟩
        simpa using inRange 1

/-! ## Kinds of results -/

/-- Whether a result is an integer or a trap. -/
def IsIntegral (result : Except EvalError Atom) : Prop :=
  (∃ value, result = .ok (.integer value)) ∨ ∃ detail, result = .error (.arithmeticTrap detail)

/-- What an operation on numbers can come to, by the kinds of its operands. -/
inductive Outcome (operator : String) : List Atom → Except EvalError Atom → Prop
  | mismatch {before after : List Atom} {operand : Atom}
      (numbers : ∀ earlier ∈ before, earlier.isNumeric = true) (other : operand.isNumeric = false) :
      Outcome operator (before ++ operand :: after)
        (.error (.argument operator (before.length + 1) "number" operand.typeName))
  | decimal {operands : List Atom} {value : Decimal}
      (numbers : ∀ operand ∈ operands, operand.isNumeric = true)
      (promoting : ∃ operand ∈ operands, operand.isDecimal = true) :
      Outcome operator operands (.ok (.decimal value))
  | integral {operands : List Atom} {result : Except EvalError Atom}
      (integers : ∀ operand ∈ operands, operand.isInteger = true) (given : IsIntegral result) :
      Outcome operator operands result

/-- What the kinds of the operands say about the result of an operation on numbers. -/
structure FollowsKinds (operator : String) (operands : List Atom) (result : Except EvalError Atom) :
    Prop where
  decimal_iff : (∃ value, result = .ok (.decimal value)) ↔
    (∃ operand ∈ operands, operand.isDecimal = true) ∧
    ∀ operand ∈ operands, operand.isNumeric = true
  mismatch_iff : (∃ detail, result = .error (.typeMismatch detail)) ↔
    ∃ operand ∈ operands, operand.isNumeric = false
  mismatch_first : ∀ detail, result = .error (.typeMismatch detail) →
    ∃ before operand after, operands = before ++ operand :: after ∧
      (∀ earlier ∈ before, earlier.isNumeric = true) ∧ operand.isNumeric = false ∧
      result = .error (.argument operator (before.length + 1) "number" operand.typeName)
  integral_iff : IsIntegral result ↔ ∀ operand ∈ operands, operand.isInteger = true

namespace Outcome

variable {operator : String} {operands : List Atom} {result : Except EvalError Atom}

/-- The outcomes exclude each other, and so do the kinds of operands that they come from. -/
theorem followsKinds (outcome : Outcome operator operands result) :
    FollowsKinds operator operands result := by
  cases outcome with
  | @mismatch before after operand numbers other =>
      have mem : operand ∈ before ++ operand :: after := by simp
      refine ⟨⟨?_, fun given => ?_⟩, ⟨fun _ => ⟨operand, mem, other⟩, fun _ => ⟨_, rfl⟩⟩,
        fun _ _ => ⟨before, operand, after, rfl, numbers, other, rfl⟩, ⟨?_, fun integers => ?_⟩⟩
      · rintro ⟨_, ⟨⟩⟩
      · cases (given.2 operand mem).symm.trans other
      · rintro (⟨_, ⟨⟩⟩ | ⟨_, ⟨⟩⟩)
      · cases (operand.isInteger_iff.mp (integers operand mem)).1.symm.trans other
  | decimal numbers promoting =>
      refine ⟨⟨fun _ => ⟨promoting, numbers⟩, fun _ => ⟨_, rfl⟩⟩, ⟨?_, ?_⟩, nofun,
        ⟨?_, fun integers => ?_⟩⟩
      · rintro ⟨_, ⟨⟩⟩
      · rintro ⟨operand, mem, other⟩
        cases (numbers operand mem).symm.trans other
      · rintro (⟨_, ⟨⟩⟩ | ⟨_, ⟨⟩⟩)
      · obtain ⟨operand, mem, promoted⟩ := promoting
        cases (operand.isInteger_iff.mp (integers operand mem)).2.symm.trans promoted
  | integral integers given =>
      have kinds (operand : Atom) (mem : operand ∈ operands) :=
        operand.isInteger_iff.mp (integers operand mem)
      refine ⟨⟨?_, ?_⟩, ⟨?_, ?_⟩, ?_, fun _ => integers, fun _ => given⟩
      · obtain ⟨_, rfl⟩ | ⟨_, rfl⟩ := given <;> rintro ⟨_, ⟨⟩⟩
      · rintro ⟨⟨operand, mem, promoted⟩, -⟩
        cases (kinds operand mem).2.symm.trans promoted
      · obtain ⟨_, rfl⟩ | ⟨_, rfl⟩ := given <;> rintro ⟨_, ⟨⟩⟩
      · rintro ⟨operand, mem, other⟩
        cases (kinds operand mem).1.symm.trans other
      · obtain ⟨_, rfl⟩ | ⟨_, rfl⟩ := given <;> exact nofun

end Outcome

/-- The numbers of the operands are looked up from left to right, up to the first that is none. -/
theorem numbersFrom_cases (operator : String) : ∀ (position : Nat) (operands : List Atom),
    (∃ numbers, operands.map Number.ofAtom? = numbers.map some ∧
      numbersFrom operator position operands = .ok numbers) ∨
    ∃ before operand after, operands = before ++ operand :: after ∧
      (∀ earlier ∈ before, earlier.isNumeric = true) ∧ operand.isNumeric = false ∧
      numbersFrom operator position operands =
        .error (.argument operator (position + before.length) "number" operand.typeName)
  | _, [] => .inl ⟨[], rfl, rfl⟩
  | position, operand :: operands => by
      rw [numbersFrom, ArgumentPlace.number, ArgumentPlace.expect]
      cases known : Number.ofAtom? operand with
      | none =>
          refine .inr ⟨[], operand, operands, rfl, nofun, ?_, rfl⟩
          rw [Atom.isNumeric, known, Option.isSome_none]
      | some number =>
          have isNumeric : operand.isNumeric = true := by
            rw [Atom.isNumeric, known, Option.isSome_some]
          obtain ⟨numbers, others, succeeds⟩ |
              ⟨before, operand', after, rfl, earlier, other, stops⟩ :=
            numbersFrom_cases operator (position + 1) operands
          · refine .inl ⟨number :: numbers, ?_, ?_⟩
            · rw [List.map_cons, List.map_cons, known, others]
            · rw [succeeds]
              rfl
          · refine .inr ⟨operand :: before, operand', after, rfl, ?_, other, ?_⟩
            · exact List.forall_mem_cons.mpr ⟨isNumeric, earlier⟩
            · rw [stops, List.length_cons, ← Nat.add_right_comm, Nat.add_assoc]
              rfl

section Numbers

variable {operands : List Atom} {numbers : List Number}

theorem isNumeric_of_map (known : operands.map Number.ofAtom? = numbers.map some) :
    ∀ operand ∈ operands, operand.isNumeric = true := by
  intro operand mem
  obtain ⟨number, -, same⟩ := List.mem_map.mp (known ▸ List.mem_map_of_mem mem)
  rw [Atom.isNumeric, ← same, Option.isSome_some]

theorem any_isDecimal_of_map (known : operands.map Number.ofAtom? = numbers.map some) :
    operands.any Atom.isDecimal = numbers.any Number.isDecimal := by
  have looked := congrArg (List.any · (Option.any Number.isDecimal)) known
  rwa [List.any_map, List.any_map] at looked

/-- Numbers that are no decimals are integers. -/
theorem exists_integers : ∀ {numbers : List Number}, numbers.any Number.isDecimal = false →
    ∃ values : List Integer, numbers = values.map .integer
  | [], _ => ⟨[], rfl⟩
  | .integer value :: _, integral => by
      obtain ⟨values, rfl⟩ := exists_integers ((List.any_cons ▸ integral :) : (_ || _) = false)
      exact ⟨value :: values, rfl⟩

theorem not_any_isDecimal (values : List Integer) :
    (values.map Number.integer).any Number.isDecimal = false := by
  rw [List.any_map, List.any_eq_false]
  exact fun _ _ => Bool.false_ne_true

theorem numbersFrom_of_map {operator : String} {position : Nat}
    (known : operands.map Number.ofAtom? = numbers.map some) :
    numbersFrom operator position operands = .ok numbers := by
  obtain ⟨numbers', known', succeeds⟩ | ⟨before, operand, after, rfl, -, other, -⟩ :=
    numbersFrom_cases operator position operands
  · rw [succeeds, List.map_injective_iff.mpr (fun _ _ => Option.some.inj) (known'.symm.trans known)]
  · cases (isNumeric_of_map known operand (by simp)).symm.trans other

theorem numbers_of_integers {values : List Integer}
    (integers : operands.map Atom.integer? = values.map some) :
    operands.map Number.ofAtom? = (values.map Number.integer).map some := by
  induction operands generalizing values with
  | nil => cases values with
      | nil => rfl
      | cons => cases integers
  | cons operand operands ih => cases values with
      | nil => cases integers
      | cons value values =>
          obtain ⟨first, others⟩ := List.cons.inj integers
          rw [List.map_cons, Atom.ofAtom?_of_integer? first, ih others]
          rfl

end Numbers

/-- An operation looks up the numbers of its operands, and works on decimals as soon as one of them
is one. -/
theorem outcome_of_numbers (operator : String) (operands : List Atom)
    {work : List Number → Except EvalError Atom}
    (decimal : ∀ numbers, numbers.length = operands.length → numbers.any Number.isDecimal = true →
      ∃ value, work numbers = .ok (.decimal value))
    (integral : ∀ values : List Integer, values.length = operands.length →
      IsIntegral (work (values.map .integer))) :
    Outcome operator operands (numbersFrom operator 1 operands >>= work) := by
  obtain ⟨numbers, known, succeeds⟩ | ⟨before, operand, after, rfl, earlier, other, stops⟩ :=
    numbersFrom_cases operator 1 operands
  · have count : numbers.length = operands.length := by
      simpa only [List.length_map] using (congrArg List.length known).symm
    have decimals := any_isDecimal_of_map known
    rw [succeeds]
    cases promoting : numbers.any Number.isDecimal with
    | true =>
        obtain ⟨value, promoted⟩ := decimal numbers count promoting
        rw [promoting, List.any_eq_true] at decimals
        change Outcome operator operands (work numbers)
        exact promoted ▸ .decimal (isNumeric_of_map known) decimals
    | false =>
        obtain ⟨values, rfl⟩ := exists_integers promoting
        rw [promoting, List.any_eq_false] at decimals
        rw [List.length_map] at count
        refine .integral (fun operand mem => ?_) (integral values count)
        have noDecimal : operand.isDecimal = false := by simpa using decimals operand mem
        exact operand.isInteger_iff.mpr ⟨isNumeric_of_map known operand mem, noDecimal⟩
  · rw [stops, Nat.add_comm]
    exact .mismatch earlier other

theorem sum_list (modifier : Modifier) (operands : List Atom) :
    sum (.list modifier operands) = numbersFrom "+" 1 operands >>= fun numbers =>
      if numbers.any Number.isDecimal then
        .ok (.decimal (Decimal.sum (numbers.map Number.toDecimal)))
      else (sumIntegers .zero numbers).map Atom.integer := by
  change numbersFrom "+" 1 operands >>= _ = _
  refine congrArg _ (funext fun numbers => ?_)
  split
  · rfl
  · cases sumIntegers .zero numbers <;> rfl

theorem sum_outcome (modifier : Modifier) (operands : List Atom) :
    Outcome "+" operands (sum (.list modifier operands)) := by
  rw [sum_list]
  refine outcome_of_numbers "+" operands (fun numbers _ promoting => ?_) (fun values _ => ?_)
  · exact ⟨_, if_pos promoting⟩
  · rw [not_any_isDecimal]
    exact (sumIntegers_exact .zero values).integer_or_trap

theorem sum_integers (modifier : Modifier) {operands : List Atom} {values : List Integer}
    (integers : operands.map Atom.integer? = values.map some) :
    sum (.list modifier operands) = (sumIntegers .zero (values.map .integer)).map Atom.integer := by
  rw [sum_list, numbersFrom_of_map (numbers_of_integers integers)]
  change (if (values.map Number.integer).any Number.isDecimal then _ else _) = _
  rw [not_any_isDecimal, if_neg Bool.false_ne_true]

/-- What an operation on two numbers does with them. -/
def onNumbers (integer : Integer → Integer → Except EvalError Integer)
    (decimal : Decimal → Decimal → Decimal) : List Number → Except EvalError Atom
  | [.integer a, .integer b] => do return .integer (← integer a b)
  | [a, b] => .ok (.decimal (decimal a.toDecimal b.toDecimal))
  | _ => .ok .nil

theorem arithmetic_eq (operator : String) (integer : Integer → Integer → Except EvalError Integer)
    (decimal : Decimal → Decimal → Decimal) (a b : Atom) :
    arithmetic operator integer decimal a b =
      numbersFrom operator 1 [a, b] >>= onNumbers integer decimal := by
  rw [arithmetic, numbersFrom, numbersFrom, numbersFrom]
  rcases ArgumentPlace.number ⟨operator, 1⟩ a with _ | _ | _
  · rfl
  · rcases ArgumentPlace.number ⟨operator, 2⟩ b with _ | _ | _ <;> rfl
  · rcases ArgumentPlace.number ⟨operator, 2⟩ b with _ | _ | _ <;> rfl

theorem onNumbers_integers (integer : Integer → Integer → Except EvalError Integer)
    (decimal : Decimal → Decimal → Decimal) (a b : Integer) :
    onNumbers integer decimal [.integer a, .integer b] = (integer a b).map Atom.integer := by
  rw [onNumbers]
  cases integer a b <;> rfl

theorem arithmetic_integers (operator : String)
    (integer : Integer → Integer → Except EvalError Integer) (decimal : Decimal → Decimal → Decimal)
    (modifier modifier' : Modifier) (a b : Integer) :
    arithmetic operator integer decimal (.leaf modifier (.integer a))
      (.leaf modifier' (.integer b)) =
      (integer a b).map Atom.integer :=
  onNumbers_integers integer decimal a b

theorem arithmetic_outcome (operator : String)
    {integer : Integer → Integer → Except EvalError Integer}
    (integral : ∀ a b, IsIntegral ((integer a b).map Atom.integer))
    (decimal : Decimal → Decimal → Decimal) (a b : Atom) :
    Outcome operator [a, b] (arithmetic operator integer decimal a b) := by
  rw [arithmetic_eq]
  refine outcome_of_numbers operator [a, b] (fun numbers count promoting => ?_)
    (fun values count => ?_)
  · obtain ⟨a, b, rfl⟩ := List.length_eq_two.mp count
    cases a <;> cases b
    · cases promoting
    all_goals exact ⟨_, rfl⟩
  · obtain ⟨a, b, rfl⟩ := List.length_eq_two.mp count
    rw [List.map_cons, List.map_cons, List.map_nil, onNumbers_integers]
    exact integral a b

/-! ## The builtins -/

/-- The sum of integers is the exact one when every partial sum is in range, and a trap otherwise;
the difference, the product and the quotient cut off toward zero are the exact ones when they exist
and are in range, and traps otherwise. An operation gives a decimal exactly when one operand is a
decimal and all are numbers, and a mismatch exactly when an operand is no number, whose place and
type the first such operand gives. -/
theorem arithmetic_exact_or_traps :
    (∀ (modifier : Modifier) (operands : List Atom) (values : List Integer),
      operands.map Atom.integer? = values.map some →
      ExactOrTrap (∀ count, Integer.Fits ((values.take count).map Integer.val).sum)
        (values.map Integer.val).sum (sum (.list modifier operands))) ∧
    (∀ (modifier modifier' : Modifier) (a b : Integer),
      let left : Atom := .leaf modifier (.integer a)
      let right : Atom := .leaf modifier' (.integer b)
      ExactOrTrap (Integer.Fits (a.val - b.val)) (a.val - b.val) (difference left right) ∧
      ExactOrTrap (Integer.Fits (a.val * b.val)) (a.val * b.val) (product left right) ∧
      ExactOrTrap (b.val ≠ 0 ∧ Integer.Fits (a.val.tdiv b.val)) (a.val.tdiv b.val)
        (quotient left right)) ∧
    (∀ (modifier : Modifier) (operands : List Atom),
      FollowsKinds "+" operands (sum (.list modifier operands))) ∧
    ∀ a b : Atom, FollowsKinds "-" [a, b] (difference a b) ∧ FollowsKinds "*" [a, b] (product a b) ∧
      FollowsKinds "/" [a, b] (quotient a b) := by
  refine ⟨fun modifier operands values integers => ?_, fun modifier modifier' a b => ⟨?_, ?_, ?_⟩,
    fun modifier operands => (sum_outcome modifier operands).followsKinds, fun a b => ⟨?_, ?_, ?_⟩⟩
  · have exact := sumIntegers_exact .zero values
    simpa only [sum_integers modifier integers, Integer.zero, Int.zero_add] using exact
  · rw [difference, arithmetic_integers]
    exact checked_exact "-" a b _
  · rw [product, arithmetic_integers]
    exact checked_exact "*" a b _
  · rw [quotient, arithmetic_integers]
    exact divideIntegers_exact a b
  · exact (arithmetic_outcome "-" (fun _ _ => (checked_exact ..).integer_or_trap)
      _ a b).followsKinds
  · exact (arithmetic_outcome "*" (fun _ _ => (checked_exact ..).integer_or_trap)
      _ a b).followsKinds
  · exact (arithmetic_outcome "/" (fun _ _ => (divideIntegers_exact ..).integer_or_trap)
      _ a b).followsKinds

/-- Whether the greatest integer, one and minus one have a sum depends on their order. The least
integer has no quotient by minus one, a quotient is cut off toward zero, and a string is named where
it stands. -/
theorem arithmetic_exact_or_traps_at_limits :
    let minusOne : Integer := ⟨-1, by decide, by decide⟩
    let minusTwo : Integer := ⟨-2, by decide, by decide⟩
    let largest : Atom := .integer .maximum
    (∃ detail, sum (.ofList [largest, .integer .one, .integer minusOne]) =
      .error (.arithmeticTrap detail)) ∧
    (∃ value : Integer, value.val = 2147483647 ∧
      sum (.ofList [largest, .integer minusOne, .integer .one]) = .ok (.integer value)) ∧
    (∃ detail, quotient (.integer .minimum) (.integer minusOne) = .error (.arithmeticTrap detail)) ∧
    (∃ detail, quotient largest (.integer .zero) = .error (.arithmeticTrap detail)) ∧
    (∃ value : Integer, value.val = -1073741823 ∧
      quotient largest (.integer minusTwo) = .ok (.integer value)) ∧
    (∃ value, sum (.ofList [largest, .decimal .zero]) = .ok (.decimal value)) ∧
    ∃ detail, difference largest (.string "x") = .error (.typeMismatch detail) := by
  intro minusOne minusTwo largest
  obtain ⟨sums, binary, sumKinds, kinds⟩ := arithmetic_exact_or_traps
  refine ⟨(sums .plain _ [.maximum, .one, minusOne] rfl).trap fun inRange => ?_,
    (sums .plain _ [.maximum, minusOne, .one] rfl).exact fun count => ?_,
    (binary .plain .plain .minimum minusOne).2.2.trap (by decide),
    (binary .plain .plain .maximum .zero).2.2.trap (by decide),
    (binary .plain .plain .maximum minusTwo).2.2.exact (by decide),
    (sumKinds .plain _).decimal_iff.mpr ⟨⟨.decimal .zero, .tail _ (.head _), rfl⟩, by decide⟩,
    (kinds largest (.string "x")).1.mismatch_iff.mpr ⟨.string "x", .tail _ (.head _), rfl⟩⟩
  · exact absurd (inRange 2) (by decide)
  · match count with
    | 0 | 1 | 2 => decide
    | count + 3 =>
        rw [List.take_of_length_le (Nat.le_add_left 3 count)]
        decide

/-! ## Random integers -/

/-- A random integer is drawn in its range, whatever the source, and a draw changes no more than the
number of draws. A range of one integer is not drawn from, and one that ends before it starts is a
fault. -/
theorem random_inRange (least bound : Integer) (machine : Machine) :
    (bound.val < least.val → ∃ message,
      Effect.outcome (random (.integer least) (.integer bound)) machine =
        (.error (.fault (.runtime message)), machine)) ∧
    (bound.val = least.val →
      Effect.outcome (random (.integer least) (.integer bound)) machine =
        (.ok (.integer least), machine)) ∧
    (least.val < bound.val → ∃ value : Integer, least.val ≤ value.val ∧ value.val < bound.val ∧
      Effect.outcome (random (.integer least) (.integer bound)) machine =
        (.ok (.integer value), { machine with drawn := machine.drawn + 1 })) := by
  have unfolded : random (.integer least) (.integer bound) =
      if bound.val < least.val then
        EvalM.fail (.runtime ("rand: min " ++ least.text ++ " is greater than max " ++ bound.text))
      else if least.val = bound.val then return .integer least
      else return .integer (← EvalM.draw least bound) := rfl
  rw [unfolded]
  refine ⟨fun empty => ⟨_, by rw [if_pos empty]; rfl⟩, fun single => ?_, fun inhabited => ?_⟩
  · rw [if_neg (by omega), if_pos single.symm]
    rfl
  · obtain ⟨above, below⟩ := machine.random.inRange machine.drawn least bound inhabited
    refine ⟨_, above, below, ?_⟩
    rw [if_neg (by omega), if_neg (by omega)]
    rfl

end Builtin

end RecordLisp
