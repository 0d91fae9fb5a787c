import RecordLisp.Json.Reader

/-!
# Texts that go on

What a reader of JSON takes from the start of a text does not depend on what follows. Only a number
has no end of its own, so that what follows must not go on with it. Nor does it depend on the bounds
of nesting and of items, as long as they are high enough. A document can thus be read as a part of a
larger one.
-/

namespace RecordLisp.Json

/-- Whether a text can follow a number without being taken for a part of it. -/
def EndsNumber (text : List Char) : Prop :=
  ∀ ch ∈ text.head?, Text.isDigit ch = false ∧ ch ≠ '.' ∧ ch ≠ 'e' ∧ ch ≠ 'E'

/-- Whether a reader takes the same from a text that goes on with `more` as another from the text
alone. -/
def Extends {α : Type} (more : List Char) (read wider : List Char → Option (α × List Char)) :
    Prop :=
  ∀ text value rest, read text = some (value, rest) →
    wider (text ++ more) = some (value, rest ++ more)

variable {more : List Char}

theorem skipSpace_append {text rest : List Char} {ch : Char}
    (remains : skipSpace text = ch :: rest) :
    skipSpace (text ++ more) = ch :: (rest ++ more) := by
  unfold skipSpace at *
  rw [List.dropWhile_append, remains]
  rfl

/-! ## Words and strings -/

theorem extends_readWord (value : Json) (word : List Char) :
    Extends more (readWord value word) (readWord value word) := by
  intro text document rest found
  induction word generalizing text with
  | nil =>
      cases found
      rfl
  | cons expected word ih =>
      cases text with
      | nil => cases found
      | cons ch text =>
          rw [readWord] at found
          rw [List.cons_append, readWord]
          split at found
          · rename_i same
            rw [if_pos same]
            exact ih text found
          · cases found

theorem readUnits_code (a b c d : Char) (text : List Char) :
    readUnits ('\\' :: 'u' :: a :: b :: c :: d :: text) =
      (hexUnit? a b c d).bind fun code => (readUnits text).map fun read =>
        (.ofCode code :: read.1, read.2) := by
  rw [readUnits]
  cases hexUnit? a b c d with
  | none => rfl
  | some code => cases readUnits text <;> rfl

theorem readUnits_escape {escape ch : Char} (short : shortEscape? escape = some ch)
    (text : List Char) :
    readUnits ('\\' :: escape :: text) = (readUnits text).map fun read =>
      (.char ch :: read.1, read.2) := by
  have notCode : escape ≠ 'u' := by
    rintro rfl
    cases short
  rw [readUnits, short]
  · cases readUnits text <;> rfl
  · intro _ _ _ _ _ isCode
    exact absurd isCode notCode

theorem readUnits_plain {ch : Char} (notQuote : ch ≠ '\x22') (notEscape : ch ≠ '\\')
    (notControl : 0x20 ≤ ch.toNat) (text : List Char) :
    readUnits (ch :: text) = (readUnits text).map fun read => (.char ch :: read.1, read.2) := by
  have allowed : ¬ (ch.toNat < 0x20 ∨ ch = '\\') := by
    rintro (control | escape)
    · omega
    · exact notEscape escape
  rw [readUnits, if_neg allowed]
  · cases readUnits text <;> rfl
  · exact notQuote
  · intro _ _ _ _ _ escape
    exact absurd escape notEscape
  · intro _ _ escape
    exact absurd escape notEscape

theorem extends_readUnits : Extends more readUnits readUnits := by
  intro text units rest found
  fun_induction readUnits text generalizing units with
  | case1 => cases found
  | case2 text =>
      cases found
      rfl
  | case3 a b c d text ih =>
      obtain ⟨code, isCode, found⟩ := Option.bind_eq_some_iff.mp found
      obtain ⟨⟨units', _⟩, inner, found⟩ := Option.bind_eq_some_iff.mp found
      cases found
      simp only [List.cons_append]
      rw [readUnits_code, isCode, ih units' inner]
      rfl
  | case4 escape text _ ih =>
      obtain ⟨ch, short, found⟩ := Option.bind_eq_some_iff.mp found
      obtain ⟨⟨units', _⟩, inner, found⟩ := Option.bind_eq_some_iff.mp found
      cases found
      simp only [List.cons_append]
      rw [readUnits_escape short, ih units' inner]
      rfl
  | case5 => cases found
  | case6 ch text notQuote _ _ allowed ih =>
      obtain ⟨⟨units', _⟩, inner, found⟩ := Option.bind_eq_some_iff.mp found
      cases found
      have notControl : 0x20 ≤ ch.toNat := by omega
      have notEscape : ch ≠ '\\' := fun escape => allowed (.inr escape)
      rw [List.cons_append, readUnits_plain notQuote notEscape notControl, ih units' inner]
      rfl

theorem extends_readText : Extends more readText readText := by
  intro text value rest found
  obtain ⟨⟨units, _⟩, inner, found⟩ := Option.bind_eq_some_iff.mp found
  cases found
  rw [readText, extends_readUnits text units rest inner]
  rfl

/-! ## Numbers -/

theorem readWhole_eq_some_iff {text digits rest : List Char} :
    readWhole text = some (digits, rest) ↔
      readDigits text = (digits, rest) ∧ digits ≠ [] ∧
      ∀ next later, digits ≠ '0' :: next :: later := by
  unfold readWhole
  generalize readDigits text = read
  split
  · refine ⟨nofun, ?_⟩
    rintro ⟨⟨⟩, nonempty, -⟩
    exact absurd rfl nonempty
  · refine ⟨nofun, ?_⟩
    rintro ⟨⟨⟩, -, noZero⟩
    exact absurd rfl (noZero _ _)
  · rename_i nonempty noZero
    constructor
    · rintro ⟨⟩
      exact ⟨rfl, nonempty, noZero⟩
    · rintro ⟨⟨⟩, -⟩
      rfl

theorem readFraction_of_ne {ch : Char} (noPoint : ch ≠ '.') (text : List Char) :
    readFraction (ch :: text) = some ([], ch :: text) := by
  rw [readFraction]
  intro _ point
  exact absurd (List.cons.inj point).1 noPoint

section Numbers

variable (ends : EndsNumber more)
include ends

theorem readDigits_append (text : List Char) :
    readDigits (text ++ more) = ((readDigits text).1, (readDigits text).2 ++ more) := by
  induction text with
  | nil =>
      cases more with
      | nil => rfl
      | cons ch more =>
          have noDigit := (ends ch rfl).1
          simp [readDigits, noDigit]
  | cons ch text ih =>
      simp only [readDigits, Prod.mk.injEq] at ih
      simp only [readDigits, List.cons_append, List.takeWhile_cons, List.dropWhile_cons]
      split
      · rw [ih.1, ih.2]
      · rfl

theorem extends_readWhole : Extends more readWhole readWhole := by
  intro text whole rest found
  obtain ⟨read, isWhole⟩ := readWhole_eq_some_iff.mp found
  apply readWhole_eq_some_iff.mpr
  rw [readDigits_append ends, read]
  exact ⟨rfl, isWhole⟩

theorem extends_readFraction : Extends more readFraction readFraction := by
  intro text fraction rest found
  cases text with
  | nil =>
      cases found
      cases more with
      | nil => rfl
      | cons ch more => exact readFraction_of_ne (ends ch rfl).2.1 more
  | cons ch text =>
      rw [List.cons_append]
      by_cases point : ch = '.'
      · subst point
        rw [readFraction] at found ⊢
        rw [readDigits_append ends]
        generalize readDigits text = read at found ⊢
        split at found
        · cases found
        · cases found
          rfl
      · rw [readFraction_of_ne point] at found ⊢
        cases found
        rfl

theorem extends_readExponentDigits (negative : Bool) :
    Extends more (readExponentDigits negative) (readExponentDigits negative) := by
  intro text exponent rest found
  unfold readExponentDigits at *
  rw [readDigits_append ends]
  generalize readDigits text = read at found ⊢
  split at found
  · cases found
  · cases found
    rfl

theorem extends_readExponent : Extends more readExponent readExponent := by
  intro text exponent rest found
  cases text with
  | nil =>
      cases found
      cases more with
      | nil => rfl
      | cons ch more =>
          have noMark : ¬ (ch = 'e' ∨ ch = 'E') := not_or.mpr (ends ch rfl).2.2
          exact if_neg noMark
  | cons ch text =>
      rw [List.cons_append]
      unfold readExponent at *
      dsimp only at found ⊢
      by_cases mark : ch = 'e' ∨ ch = 'E'
      · rw [if_pos mark] at found ⊢
        split at found
        · exact extends_readExponentDigits ends true _ _ _ found
        · exact extends_readExponentDigits ends false _ _ _ found
        · rename_i noMinus noPlus
          have goesOn := extends_readExponentDigits ends false _ _ _ found
          cases text with
          | nil => cases found
          | cons sign digits =>
              rw [List.cons_append] at goesOn ⊢
              split
              · rename_i minus
                exact absurd (congrArg (· :: digits) (List.cons.inj minus).1) (noMinus digits)
              · rename_i plus
                exact absurd (congrArg (· :: digits) (List.cons.inj plus).1) (noPlus digits)
              · exact goesOn
      · rw [if_neg mark] at found ⊢
        cases found
        rfl

theorem extends_readNumber (negative : Bool) :
    Extends more (readNumber negative) (readNumber negative) := by
  intro text document rest found
  obtain ⟨⟨whole, afterWhole⟩, isWhole, found⟩ := Option.bind_eq_some_iff.mp found
  obtain ⟨⟨fraction, afterFraction⟩, isFraction, found⟩ := Option.bind_eq_some_iff.mp found
  obtain ⟨⟨exponent, _⟩, isExponent, found⟩ := Option.bind_eq_some_iff.mp found
  cases found
  rw [readNumber, extends_readWhole ends text whole afterWhole isWhole]
  change (readFraction _ >>= _) = _
  rw [extends_readFraction ends afterWhole fraction afterFraction isFraction]
  change (readExponent _ >>= _) = _
  rw [extends_readExponent ends afterFraction exponent rest isExponent]
  rfl

end Numbers

/-! ## Arrays and objects -/

/-- A reader that takes nothing from the empty text takes no items from it. -/
theorem readItems_nil {read : List Char → Option (Json × List Char)} (nonempty : read [] = none)
    (rounds : Nat) :
    readItems read rounds [] = none := by
  cases rounds with
  | zero => rfl
  | succ rounds => rw [readItems, nonempty, Option.bind_eq_bind, Option.bind_none]

section Nested

variable {read wider : List Char → Option (Json × List Char)} (goesOn : Extends more read wider)
include goesOn

theorem extends_readItems {rounds rounds' : Nat} (enough : rounds ≤ rounds') :
    Extends more (readItems read rounds) (readItems wider rounds') := by
  induction rounds generalizing rounds' with
  | zero =>
      intro text items rest found
      cases found
  | succ rounds ih =>
      intro text items rest found
      cases rounds' with
      | zero => exact absurd enough (Nat.not_succ_le_zero rounds)
      | succ rounds' =>
          obtain ⟨⟨item, after⟩, isItem, found⟩ := Option.bind_eq_some_iff.mp found
          dsimp only at found
          rw [readItems, goesOn text item after isItem, Option.bind_eq_bind, Option.bind_some]
          split at found
          · rename_i later comma
            obtain ⟨⟨items', after'⟩, areItems, found⟩ := Option.bind_eq_some_iff.mp found
            cases found
            have later' := ih (Nat.le_of_succ_le_succ enough) later items' after' areItems
            simp only [skipSpace_append comma, later']
            rfl
          · rename_i later bracket
            cases found
            simp only [skipSpace_append bracket]
            rfl
          · cases found

theorem extends_readMember : Extends more (readMember read) (readMember wider) := by
  intro text member rest found
  unfold readMember at *
  split at found
  · rename_i later quote
    obtain ⟨⟨name, after⟩, isName, found⟩ := Option.bind_eq_some_iff.mp found
    dsimp only at found
    split at found
    · rename_i later' colon
      obtain ⟨⟨value, after'⟩, isValue, found⟩ := Option.bind_eq_some_iff.mp found
      cases found
      simp only [skipSpace_append quote, extends_readText later name after isName,
        Option.bind_eq_bind, Option.bind_some, skipSpace_append colon,
        goesOn later' value after' isValue]
      rfl
    · cases found
  · cases found

theorem extends_readMembers {rounds rounds' : Nat} (enough : rounds ≤ rounds') :
    Extends more (readMembers read rounds) (readMembers wider rounds') := by
  induction rounds generalizing rounds' with
  | zero =>
      intro text members rest found
      cases found
  | succ rounds ih =>
      intro text members rest found
      cases rounds' with
      | zero => exact absurd enough (Nat.not_succ_le_zero rounds)
      | succ rounds' =>
          obtain ⟨⟨member, after⟩, isMember, found⟩ := Option.bind_eq_some_iff.mp found
          dsimp only at found
          rw [readMembers, extends_readMember goesOn text member after isMember,
            Option.bind_eq_bind, Option.bind_some]
          split at found
          · rename_i later comma
            obtain ⟨⟨members', after'⟩, areMembers, found⟩ := Option.bind_eq_some_iff.mp found
            cases found
            have later' := ih (Nat.le_of_succ_le_succ enough) later members' after' areMembers
            simp only [skipSpace_append comma, later']
            rfl
          · rename_i later brace
            cases found
            simp only [skipSpace_append brace]
            rfl
          · cases found

theorem extends_readArray (nonempty : read [] = none) {rounds rounds' : Nat}
    (enough : rounds ≤ rounds') :
    Extends more (readArray read rounds) (readArray wider rounds') := by
  intro text document rest found
  unfold readArray at *
  split at found
  · rename_i later bracket
    cases found
    simp only [skipSpace_append bracket]
  · rename_i noBracket
    obtain ⟨⟨items, after⟩, areItems, found⟩ := Option.bind_eq_some_iff.mp found
    cases found
    cases start : skipSpace text with
    | nil => cases (start ▸ areItems).symm.trans (readItems_nil nonempty rounds)
    | cons ch later =>
        rw [start] at areItems noBracket
        have later' := extends_readItems goesOn enough _ _ _ areItems
        rw [skipSpace_append start, ← List.cons_append]
        split
        · rename_i bracket
          cases bracket
          exact absurd rfl (noBracket later)
        · rw [later']
          rfl

theorem extends_readObject {rounds rounds' : Nat} (enough : rounds ≤ rounds') :
    Extends more (readObject read rounds) (readObject wider rounds') := by
  intro text document rest found
  unfold readObject at *
  split at found
  · rename_i later brace
    cases found
    simp only [skipSpace_append brace]
  · rename_i noBrace
    obtain ⟨⟨members, after⟩, areMembers, found⟩ := Option.bind_eq_some_iff.mp found
    cases found
    cases start : skipSpace text with
    | nil =>
        rw [start] at areMembers
        cases rounds <;> cases areMembers
    | cons ch later =>
        rw [start] at areMembers noBrace
        have later' := extends_readMembers goesOn enough _ _ _ areMembers
        rw [skipSpace_append start, ← List.cons_append]
        split
        · rename_i brace
          cases brace
          exact absurd rfl (noBrace later)
        · rw [later']
          rfl

end Nested

theorem readValue_nil (fuel : Nat) : readValue fuel [] = none := by
  cases fuel <;> rfl

/-- A document is read in the same way as a part of a larger text, where the bound of nesting may be
higher. -/
theorem extends_readValue (ends : EndsNumber more) {fuel fuel' : Nat} (enough : fuel ≤ fuel') :
    Extends more (readValue fuel) (readValue fuel') := by
  induction fuel generalizing fuel' with
  | zero =>
      intro text document rest found
      cases found
  | succ fuel ih =>
      intro text document rest found
      cases fuel' with
      | zero => exact absurd enough (Nat.not_succ_le_zero fuel)
      | succ fuel' =>
          have within := Nat.le_of_succ_le_succ enough
          rw [readValue] at found ⊢
          split at found
          · rename_i later start
            simp only [skipSpace_append start]
            exact extends_readWord _ _ _ _ _ found
          · rename_i later start
            simp only [skipSpace_append start]
            exact extends_readWord _ _ _ _ _ found
          · rename_i later start
            simp only [skipSpace_append start]
            exact extends_readWord _ _ _ _ _ found
          · rename_i later start
            obtain ⟨⟨literal, after⟩, isText, found⟩ := Option.bind_eq_some_iff.mp found
            cases found
            simp only [skipSpace_append start, extends_readText later literal rest isText]
            rfl
          · rename_i later start
            simp only [skipSpace_append start]
            exact extends_readArray (ih within) (readValue_nil fuel) within _ _ _ found
          · rename_i later start
            simp only [skipSpace_append start]
            exact extends_readObject (ih within) within _ _ _ found
          · rename_i later start
            simp only [skipSpace_append start]
            exact extends_readNumber ends true _ _ _ found
          · rename_i noNull noTrue noFalse noText noArray noObject noMinus
            cases start : skipSpace text with
            | nil =>
                rw [start] at found
                cases found
            | cons ch later =>
                rw [start] at found
                have later' := extends_readNumber ends false _ _ _ found
                -- What follows does not change the character that the kind of the document is told
                -- by.
                have keeps {first : Char} {tail : List Char}
                    (same : ch :: (later ++ more) = first :: tail) :
                    skipSpace text = first :: later :=
                  start.trans (congrArg (· :: later) (List.cons.inj same).1)
                rw [skipSpace_append start]
                split
                case h_1 same => exact (noNull _ (keeps same)).elim
                case h_2 same => exact (noTrue _ (keeps same)).elim
                case h_3 same => exact (noFalse _ (keeps same)).elim
                case h_4 same => exact (noText _ (keeps same)).elim
                case h_5 same => exact (noArray _ (keeps same)).elim
                case h_6 same => exact (noObject _ (keeps same)).elim
                case h_7 same => exact (noMinus _ (keeps same)).elim
                case h_8 => exact later'

end RecordLisp.Json
