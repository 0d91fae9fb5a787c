import RecordLisp.Builtin.Characters

/-!
# Parts of strings are windows

A part of a string is what a window over the positions of its characters shows. The window may begin
before the text, end behind it or be turned around, at any distance: its bounds are plain integers,
and the sum that is clamped on the way to the part is never clamped to a value that would show
something else.
-/

namespace RecordLisp

namespace Integer

theorem val_clamp (n : Int) : (clamp n).val = max minimum.val (min n maximum.val) := by
  have least : minimum.val = -2147483648 := rfl
  have greatest : maximum.val = 2147483647 := rfl
  unfold clamp
  cases inRange : ofInt? n with
  | some value =>
      have same := ofInt?_eq_some_iff.mp inRange
      have lower := value.minimum_le
      have upper := value.le_maximum
      rw [Option.getD_some]
      omega
  | none =>
      have outside := ofInt?_eq_none_iff.mp inRange
      rw [Option.getD_none]
      split <;> omega

/-- A sum that was clamped counts as the sum itself when something negative was added, since it can
only have been clamped to another negative value. -/
theorem toNat?_addClamped (a b : Integer) (negative : b.val < 0) :
    (a.addClamped b).toNat? = if 0 ≤ a.val + b.val then some (a.val + b.val).toNat else none := by
  have clamped := val_clamp (a.val + b.val)
  have least : minimum.val = -2147483648 := rfl
  have greatest : maximum.val = 2147483647 := rfl
  have upper := a.le_maximum
  rw [toNat?, addClamped]
  by_cases counts : 0 ≤ a.val + b.val
  · have same : (clamp (a.val + b.val)).val = a.val + b.val := by omega
    rw [same]
  · have below : ¬ 0 ≤ (clamp (a.val + b.val)).val := by omega
    rw [if_neg below, if_neg counts]

end Integer

namespace Builtin

/-- The items of a list that stand at the positions from `start` on and before `stop`, where the
first item stands at `first`. -/
def windowFrom {α : Type} (first : Nat) (start stop : Int) (items : List α) : List α :=
  ((items.zipIdx first).filter fun entry => start ≤ entry.2 ∧ entry.2 < stop).map Prod.fst

/-- The characters of a text at the positions from `start` on and before `stop`. -/
def window (start stop : Int) (text : String) : List Char := windowFrom 0 start stop text.toList

theorem windowFrom_eq {α : Type} (first : Nat) (start stop : Int) (items : List α) :
    windowFrom first start stop items =
      (items.drop (start - first).toNat).take (stop - max start first).toNat := by
  induction items generalizing first with
  | nil => simp [windowFrom]
  | cons item items ih =>
      have later := ih (first + 1)
      rw [windowFrom] at later
      rw [windowFrom, List.zipIdx_cons, List.filter_cons]
      by_cases before : (first : Int) < start
      · have skip : (start - first).toNat = (start - (first + 1 : Nat)).toNat + 1 := by omega
        have same : max start (first + 1 : Nat) = max start first := by omega
        rw [if_neg (by simp; omega), later, skip, List.drop_succ_cons, same]
      · have here : (start - first).toNat = 0 := by omega
        have next : (start - (first + 1 : Nat)).toNat = 0 := by omega
        rw [here, List.drop_zero]
        rw [next, List.drop_zero] at later
        by_cases inside : (first : Int) < stop
        · have count :
            (stop - max start first).toNat = (stop - max start (first + 1 : Nat)).toNat + 1 := by
            omega
          rw [if_pos (by simp; omega), List.map_cons, later, count, List.take_succ_cons]
        · have none : (stop - max start first).toNat = 0 := by omega
          have none' : (stop - max start (first + 1 : Nat)).toNat = 0 := by omega
          rw [if_neg (by simp; omega), later, none, none', List.take_zero, List.take_zero]

theorem toList_substring (text : String) (start length : Integer) :
    (substring text start length).toList = window start.val (start.val + length.val) text := by
  rw [window, windowFrom_eq, substring]
  by_cases before : start.val < 0
  · have first : (start.val - (0 : Nat)).toNat = 0 := by omega
    have count : (start.val + length.val - max start.val (0 : Nat)).toNat =
        (length.val + start.val).toNat := by
      omega
    have zero : Integer.zero.toNat? = some 0 := rfl
    rw [if_pos before, first, count]
    simp only [zero, Integer.toNat?_addClamped length start before]
    by_cases counts : 0 ≤ length.val + start.val
    · rw [if_pos counts]
      exact String.toList_ofList
    · have nothing : (length.val + start.val).toNat = 0 := by omega
      rw [if_neg counts, nothing, List.take_zero]
      exact String.toList_empty
  · have first : (start.val - (0 : Nat)).toNat = start.val.toNat := by omega
    have count :
        (start.val + length.val - max start.val (0 : Nat)).toNat = length.val.toNat := by omega
    rw [if_neg before, first, count]
    simp only [Integer.toNat?, if_pos (Int.not_lt.mp before)]
    by_cases counts : 0 ≤ length.val
    · rw [if_pos counts]
      exact String.toList_ofList
    · have nothing : length.val.toNat = 0 := by omega
      rw [if_neg counts, nothing, List.take_zero]
      exact String.toList_empty

/-- A part of a string consists of the characters of a window, whatever the start and the length
are: of those at a position that is not before the start and before the sum of start and length, and
nothing fails. -/
theorem part_is_window (modifier modifier' modifier'' : Modifier) (text : String)
    (start length : Integer) :
    ∃ part : String,
      stringPart (.leaf modifier (.string text)) (.leaf modifier' (.integer start))
        (.leaf modifier'' (.integer length)) = .ok (.string part) ∧
      part.toList = window start.val (start.val + length.val) text :=
  ⟨substring text start length, rfl, toList_substring text start length⟩

end Builtin

end RecordLisp
