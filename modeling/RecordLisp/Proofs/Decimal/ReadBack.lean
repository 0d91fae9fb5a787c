import RecordLisp.Decimal.Shortest
import RecordLisp.Proofs.Source.Grammar

/-!
# Numbers read back

The text of an integer and of a finite decimal denotes the number it was written for. For decimals
the shortest expansion is either accepted by the search, which reads every candidate back, or the
exact one. Dropping trailing zeros and moving the point keep the quotient that is rounded, so all
that has to be shown about rounding is that it gives back a magnitude from its own units.
-/

namespace RecordLisp

/-! ## Digits -/

namespace Text

theorem isDigit_eq (ch : Char) : isDigit ch = ch.isDigit := by
  simp [isDigit, Char.isDigit, Char.le_def]

theorem digitsValue_eq (digits : List Char) :
    digitsValue digits = Nat.ofDigitChars 10 digits 0 := by
  unfold digitsValue digitValue
  rw [Nat.ofDigitChars_eq_foldl]
  simp only [Nat.mul_comm]

/-- The digits of a number denote the number. -/
@[simp] theorem digitsValue_toDigits (n : Nat) : digitsValue (Nat.toDigits 10 n) = n := by
  rw [digitsValue_eq, Nat.ofDigitChars_ten_toDigits]

/-- Digits behind others move these up. -/
theorem digitsValue_append (upper lower : List Char) :
    digitsValue (upper ++ lower) = digitsValue upper * 10 ^ lower.length + digitsValue lower := by
  rw [digitsValue_eq, Nat.ofDigitChars_append, Nat.ofDigitChars_eq_ofDigitChars_zero,
    digitsValue_eq, digitsValue_eq, Nat.mul_comm]

@[simp] theorem digitsValue_zeros (count : Nat) : digitsValue (List.replicate count '0') = 0 := by
  simp [digitsValue_eq]

end Text

namespace Grammar

theorem digits_toDigits (n : Nat) : Digits (Nat.toDigits 10 n) := by
  refine ⟨Nat.toDigits_ne_nil, fun ch mem => ?_⟩
  rw [Text.isDigit_eq]
  exact Nat.isDigit_of_mem_toDigits (by decide) (by decide) mem

theorem Digits.zeros_append {digits : List Char} (isDigits : Digits digits) (count : Nat) :
    Digits (List.replicate count '0' ++ digits) := by
  refine ⟨by simp [isDigits.1], fun ch mem => ?_⟩
  rcases List.mem_append.mp mem with zero | digit
  · rw [List.eq_of_mem_replicate zero]
    rfl
  · exact isDigits.2 ch digit

end Grammar

/-! ## Rounding -/

theorem roundHalfEven_mul_right (numerator denominator : Nat) {scale : Nat} (positive : 0 < scale) :
    roundHalfEven (numerator * scale) (denominator * scale) =
      roundHalfEven numerator denominator := by
  have excess : 2 * (numerator * scale % (denominator * scale)) =
      2 * (numerator % denominator) * scale := by
    rw [Nat.mul_mod_mul_right, Nat.mul_assoc]
  unfold roundHalfEven
  simp only [Nat.mul_div_mul_right _ _ positive, excess, Nat.mul_lt_mul_right positive]

/-- Only the quotient counts for rounding. -/
theorem nearestPlace_mul_right (numerator denominator : Nat) {scale : Nat}
    (positive : 0 < scale) :
    nearestPlace (numerator * scale) (denominator * scale) =
      nearestPlace numerator denominator := by
  unfold nearestPlace
  simp only [Nat.mul_div_mul_right _ _ positive, Nat.mul_right_comm denominator scale,
    roundHalfEven_mul_right _ _ positive]

/-- A magnitude of at least `2^24` units has a significand of 24 bits. -/
theorem Magnitude.significand_bounds {magnitude : Magnitude} (large : 2 ^ 24 ≤ magnitude.val) :
    2 ^ 23 ≤ magnitude.val - magnitude.exponent * 2 ^ 23 ∧
      magnitude.val - magnitude.exponent * 2 ^ 23 < 2 ^ 24 := by
  unfold Magnitude.exponent
  omega

/-- A number of units that a magnitude has is rounded to this magnitude. -/
theorem nearestPlace_units (magnitude : Magnitude) :
    nearestPlace magnitude.units 1 = magnitude.val := by
  unfold nearestPlace Magnitude.units
  rw [Nat.div_one]
  by_cases large : 2 ^ 24 ≤ magnitude.val
  · obtain ⟨atLeast, below⟩ := Magnitude.significand_bounds large
    have inside : magnitude.exponent * 2 ^ 23 ≤ magnitude.val := by omega
    have width : Nat.log2 ((magnitude.val - magnitude.exponent * 2 ^ 23) * 2 ^ magnitude.exponent) =
        23 + magnitude.exponent := by
      have positive : 0 < 2 ^ magnitude.exponent := Nat.two_pow_pos _
      rw [Nat.log2_eq_iff (Nat.mul_ne_zero (by omega) (by omega))]
      constructor
      · rw [Nat.pow_add]
        exact Nat.mul_le_mul_right _ atLeast
      · rw [Nat.add_right_comm, Nat.pow_add]
        exact Nat.mul_lt_mul_of_pos_right below positive
    simp only [width, Nat.add_sub_cancel_left]
    rw [roundHalfEven_mul_right _ _ (Nat.two_pow_pos _), roundHalfEven_one]
    omega
  · have noExponent : magnitude.exponent = 0 := by
      unfold Magnitude.exponent
      omega
    have width : Nat.log2 magnitude.val - 23 = 0 := by
      by_cases zero : magnitude.val = 0
      · simp [zero]
      · have short := (Nat.log2_lt zero).mpr (Nat.lt_of_not_le large)
        omega
    simp [noExponent, width]

namespace Decimal

theorem nearest_mul_right (negative : Bool) (numerator denominator : Nat) {scale : Nat}
    (positive : 0 < scale) :
    nearest negative (numerator * scale) (denominator * scale) =
      nearest negative numerator denominator := by
  unfold nearest
  simp only [nearestPlace_mul_right _ _ positive]

theorem nearest_units (negative : Bool) (magnitude : Magnitude) :
    nearest negative magnitude.units 1 = .finite negative magnitude := by
  unfold nearest
  simp only [nearestPlace_units, magnitude.isLt, dite_true]

/-- The sign takes no part in rounding. -/
theorem nearest_of_positive {numerator denominator : Nat} {magnitude : Magnitude}
    (read : nearest false numerator denominator = .finite false magnitude) (negative : Bool) :
    nearest negative numerator denominator = .finite negative magnitude := by
  unfold nearest at read ⊢
  simp only at read ⊢
  split at read
  · rename_i inRange
    cases read
    simp [inRange]
  · cases read

theorem ofScientific_of_positive {digits : Nat} {exponent : Int} {magnitude : Magnitude}
    (read : ofScientific false digits exponent = .finite false magnitude) (negative : Bool) :
    ofScientific negative digits exponent = .finite negative magnitude := by
  cases exponent with
  | ofNat e => exact nearest_of_positive read negative
  | negSucc e => exact nearest_of_positive read negative

/-- A last digit of zero may be dropped when the exponent goes up. -/
theorem ofScientific_mul_ten (negative : Bool) (digits : Nat) (exponent : Int) :
    ofScientific negative (digits * 10) exponent =
      ofScientific negative digits (exponent + 1) := by
  match exponent with
  | .ofNat e =>
      change nearest negative (digits * 10 * 10 ^ e * 2 ^ 149) 1 =
        nearest negative (digits * 10 ^ (e + 1) * 2 ^ 149) 1
      rw [Nat.mul_assoc digits, ← Nat.pow_succ']
  | .negSucc 0 =>
      change nearest negative (digits * 10 * 2 ^ 149) (1 * 10) =
        nearest negative (digits * 1 * 2 ^ 149) 1
      rw [Nat.mul_right_comm, nearest_mul_right _ _ _ (by decide), Nat.mul_one]
  | .negSucc (e + 1) =>
      change nearest negative (digits * 10 * 2 ^ 149) (10 ^ (e + 1) * 10) =
        nearest negative (digits * 2 ^ 149) (10 ^ (e + 1))
      rw [Nat.mul_right_comm, nearest_mul_right _ _ _ (by decide)]

end Decimal

/-! ## Expansions -/

namespace Expansion

/-- The decimal with a sign that an expansion denotes. -/
def value (expansion : Expansion) (negative : Bool) : Decimal :=
  .ofScientific negative expansion.digits expansion.exponent

theorem value_of_readsAs {expansion : Expansion} {magnitude : Magnitude}
    (accepted : expansion.readsAs magnitude = true) (negative : Bool) :
    expansion.value negative = .finite negative magnitude :=
  Decimal.ofScientific_of_positive (by simpa [readsAs] using accepted) negative

theorem value_exact (magnitude : Magnitude) (negative : Bool) :
    (exact magnitude).value negative = .finite negative magnitude := by
  have scaled : ∀ places : Nat, Decimal.nearest negative
      (magnitude.units * 5 ^ places * 2 ^ places) (10 ^ places) = .finite negative magnitude := by
    intro places
    have positive : 0 < 10 ^ places := Nat.pow_pos (by decide)
    have tens : 5 ^ places * 2 ^ places = 10 ^ places := (Nat.mul_pow 5 2 places).symm
    have scale := Decimal.nearest_mul_right negative magnitude.units 1 positive
    rw [Nat.one_mul, Decimal.nearest_units] at scale
    rw [Nat.mul_assoc, tens, scale]
  exact scaled 149

theorem value_zero (negative : Bool) :
    (⟨0, 0⟩ : Expansion).value negative = .finite negative ⟨0, by decide⟩ := by
  have units : Magnitude.units ⟨0, by decide⟩ = 0 := by simp [Magnitude.units]
  have nearest := Decimal.nearest_units negative ⟨0, by decide⟩
  rw [units] at nearest
  simpa [value, Decimal.ofScientific] using nearest

theorem readsAs_of_neighbour? {magnitude : Magnitude} {exponent : Int} {expansion : Expansion}
    (found : neighbour? magnitude exponent = some expansion) :
    expansion.readsAs magnitude = true := by
  unfold neighbour? at found
  simp only at found
  split at found
  · rename_i below above
    split at found
    · exact (Option.some.inj found) ▸ below
    · exact (Option.some.inj found) ▸ above
  · rename_i below above
    exact (Option.some.inj found) ▸ below
  · rename_i below above
    exact (Option.some.inj found) ▸ above
  · contradiction

theorem readsAs_of_search {magnitude : Magnitude} {grids : Nat} {exponent : Int}
    {expansion : Expansion} (found : search magnitude grids exponent = some expansion) :
    expansion.readsAs magnitude = true := by
  induction grids generalizing exponent with
  | zero => cases found
  | succ grids ih =>
      rw [search] at found
      cases here : neighbour? magnitude exponent with
      | none =>
          rw [here] at found
          exact ih found
      | some neighbour =>
          rw [here] at found
          cases found
          exact readsAs_of_neighbour? here

/-- The shortest expansion of a magnitude denotes it. -/
theorem value_shortest (magnitude : Magnitude) (negative : Bool) :
    (shortest magnitude).value negative = .finite negative magnitude := by
  unfold shortest
  simp only
  cases found : search magnitude 9 (leadingExponent magnitude 84 (-44) - 1) with
  | none => exact value_exact magnitude negative
  | some expansion => exact value_of_readsAs (readsAs_of_search found) negative

/-- Dropping trailing zeros keeps the value. -/
theorem value_trimZeros (fuel : Nat) (expansion : Expansion) (negative : Bool) :
    (expansion.trimZeros fuel).value negative = expansion.value negative := by
  induction fuel generalizing expansion with
  | zero => rfl
  | succ fuel ih =>
      rw [trimZeros]
      split
      · rename_i trailing
        rw [ih]
        have digits : expansion.digits = expansion.digits / 10 * 10 := by omega
        unfold value
        rw [digits, Decimal.ofScientific_mul_ten, Nat.mul_div_cancel _ (by decide)]
      · rfl

/-- The text of an expansion is digits, a point and digits, and they denote its value. -/
theorem toList_text (expansion : Expansion) :
    ∃ whole fraction, Grammar.Digits whole ∧ Grammar.Digits fraction ∧
      expansion.text.toList = whole ++ '.' :: fraction ∧
      ∀ negative, Decimal.ofScientific negative (Text.digitsValue (whole ++ fraction))
        (-(fraction.length : Int)) = expansion.value negative := by
  obtain ⟨digits, exponent⟩ := expansion
  cases exponent with
  | ofNat e =>
      refine ⟨Nat.toDigits 10 (digits * 10 ^ e), ['0'], Grammar.digits_toDigits _,
        Grammar.digits_toDigits 0, by simp [text], fun negative => ?_⟩
      rw [Text.digitsValue_append, Text.digitsValue_toDigits]
      change Decimal.ofScientific negative (digits * 10 ^ e * 10) (-1) = _
      rw [Decimal.ofScientific_mul_ten]
      change Decimal.nearest negative (digits * 10 ^ e * 1 * 2 ^ 149) 1 = _
      rw [Nat.mul_one]
      rfl
  | negSucc e =>
      let lower := Nat.toDigits 10 (digits % 10 ^ (e + 1))
      let zeros := List.replicate (e + 1 - lower.length) '0'
      have fits : lower.length ≤ e + 1 :=
        (Nat.length_toDigits_le_iff (by decide) (Nat.succ_pos e)).mpr
          (Nat.mod_lt _ (Nat.pow_pos (by decide)))
      have places : (zeros ++ lower).length = e + 1 := by
        simp only [zeros, List.length_append, List.length_replicate]
        omega
      refine ⟨Nat.toDigits 10 (digits / 10 ^ (e + 1)), zeros ++ lower, Grammar.digits_toDigits _,
        (Grammar.digits_toDigits _).zeros_append _, ?_, fun negative => ?_⟩
      · simp [text, zeros, lower, ← String.length_toList]
      · have denoted :
          Text.digitsValue (Nat.toDigits 10 (digits / 10 ^ (e + 1)) ++ (zeros ++ lower))
            = digits := by
          rw [Text.digitsValue_append, places, Text.digitsValue_append, Text.digitsValue_zeros,
            Text.digitsValue_toDigits, Text.digitsValue_toDigits, Nat.zero_mul, Nat.zero_add,
            Nat.div_add_mod']
        rw [denoted, places]
        rfl

end Expansion

/-! ## Texts of numbers -/

/-- The text of a finite decimal is a sign, digits, a point and digits, and they denote it. -/
theorem Decimal.toList_text_finite (negative : Bool) (magnitude : Magnitude) :
    ∃ whole fraction, Grammar.Digits whole ∧ Grammar.Digits fraction ∧
      (Decimal.finite negative magnitude).text.toList =
        Grammar.sign negative ++ whole ++ '.' :: fraction ∧
      Decimal.ofScientific negative (Text.digitsValue (whole ++ fraction))
        (-(fraction.length : Int)) = .finite negative magnitude := by
  have signed : ∀ text : String, ((if negative then "-" else "") ++ text).toList =
      Grammar.sign negative ++ text.toList := by
    intro text
    cases negative <;> simp [Grammar.sign]
  simp only [Decimal.text, signed, List.append_assoc, List.append_cancel_left_eq]
  unfold magnitudeText
  by_cases zero : magnitude.val = 0
  · obtain ⟨whole, fraction, isWhole, isFraction, spelled, denotes⟩ := Expansion.toList_text ⟨0, 0⟩
    refine ⟨whole, fraction, isWhole, isFraction, ?_, ?_⟩
    · rw [if_pos zero, ← spelled]
      rfl
    · have isZero : magnitude = ⟨0, by decide⟩ := Fin.ext zero
      rw [denotes, Expansion.value_zero, isZero]
  · obtain ⟨whole, fraction, isWhole, isFraction, spelled, denotes⟩ :=
      Expansion.toList_text ((Expansion.shortest magnitude).trimZeros 9)
    refine ⟨whole, fraction, isWhole, isFraction, ?_, ?_⟩
    · rw [if_neg zero, spelled]
    · rw [denotes, Expansion.value_trimZeros, Expansion.value_shortest]

/-- The text of an integer is a sign and digits, and they denote it. -/
theorem Integer.toList_text (value : Integer) :
    ∃ negative digits, Grammar.Digits digits ∧
      value.text.toList = Grammar.sign negative ++ digits ∧
      value.val = if negative then -(Text.digitsValue digits : Int)
        else Text.digitsValue digits := by
  unfold Integer.text
  split
  · rename_i n same
    exact ⟨false, Nat.toDigits 10 n,
      Grammar.digits_toDigits n, by simp [Grammar.sign], by simp [same]⟩
  · rename_i n same
    refine ⟨true, Nat.toDigits 10 (n + 1), Grammar.digits_toDigits _, by simp [Grammar.sign], ?_⟩
    rw [same, Text.digitsValue_toDigits]
    rfl

end RecordLisp
