import Mathlib.Data.List.TakeWhile
import RecordLisp.Json.Writer
import RecordLisp.Proofs.Decimal.ReadBack
import RecordLisp.Proofs.Json.Continuation

/-!
# Written JSON is read back

Strings, natural numbers and objects are read as the documents that they were written for. An object
is read member by member, whatever texts of documents its values were made of: the text of a value
goes on with a comma or a brace, which takes nothing away from it.
-/

namespace RecordLisp.Json

/-! ## Strings -/

theorem hexDigit?_hexChar : ∀ n < 16, hexDigit? (Text.hexChar n) = some n := by decide

theorem hexUnit?_control {ch : Char} (control : ch.toNat < 0x20) :
    hexUnit? '0' '0' (Text.hexChar (ch.toNat / 16)) (Text.hexChar (ch.toNat % 16)) =
      some ch.toNat := by
  have zero : hexDigit? '0' = some 0 := rfl
  have upper := hexDigit?_hexChar (ch.toNat / 16) (by omega)
  have lower := hexDigit?_hexChar (ch.toNat % 16) (by omega)
  simp only [hexUnit?, zero, upper, lower, Option.bind_eq_bind, Option.bind_some, Option.pure_def]
  congr 1
  omega

theorem ofCode_control {ch : Char} (control : ch.toNat < 0x20) :
    StringUnit.ofCode ch.toNat = .char ch := by
  rw [StringUnit.ofCode, if_neg (by omega), if_neg (by omega), Char.ofNat_toNat]

/-- A character is read from the characters that stand for it in a string. -/
theorem readUnits_escapeChar (ch : Char) (text : List Char) :
    readUnits (escapeChar ch ++ text) = (readUnits text).map fun read =>
      (.char ch :: read.1, read.2) := by
  have short {escape letter : Char} (stands : shortEscape? escape = some letter)
      (same : ch = letter) :
      readUnits (['\\', escape] ++ text) =
        (readUnits text).map fun read => (.char ch :: read.1, read.2) :=
    same ▸ readUnits_escape stands text
  unfold escapeChar
  split_ifs with quote backslash feed return' tab backspace form control
  · exact short rfl quote
  · exact short rfl backslash
  · exact short rfl feed
  · exact short rfl return'
  · exact short rfl tab
  · exact short rfl backspace
  · exact short rfl form
  · simp only [List.cons_append, List.nil_append]
    rw [readUnits_code, hexUnit?_control control, Option.bind_some, ofCode_control control]
  · exact readUnits_plain quote backslash (Nat.le_of_not_lt control) text

theorem readUnits_escaped (chars rest : List Char) :
    readUnits (chars.flatMap escapeChar ++ '\x22' :: rest) = some (chars.map .char, rest) := by
  induction chars with
  | nil => rfl
  | cons ch chars ih => rw [List.flatMap_cons, List.append_assoc, readUnits_escapeChar, ih]; rfl

theorem joinUnits_map_char (chars : List Char) : joinUnits (chars.map .char) = some chars := by
  induction chars with
  | nil => rfl
  | cons ch chars ih => rw [List.map_cons, joinUnits, ih]; rfl

theorem readText_escaped (text : String) (rest : List Char) :
    readText (text.toList.flatMap escapeChar ++ '\x22' :: rest) = some (some text, rest) := by
  rw [readText, readUnits_escaped, Option.bind_eq_bind, Option.bind_some]
  dsimp only
  rw [joinUnits_map_char, Option.map_some, String.ofList_toList]
  rfl

theorem toList_writeText (text : String) :
    (writeText text).toList = '\x22' :: (text.toList.flatMap escapeChar ++ ['\x22']) := by
  simp [writeText]

theorem read_eq_some_iff {text : String} {document : Json} :
    read text = some document ↔
      ∃ spaces, readValue (text.toList.length + 1) text.toList = some (document, spaces) ∧
        skipSpace spaces = [] := by
  constructor
  · intro found
    obtain ⟨⟨document', spaces⟩, isDocument, found⟩ := Option.bind_eq_some_iff.mp found
    dsimp only at found
    split at found
    · rename_i ended
      cases found
      exact ⟨spaces, isDocument, List.isEmpty_iff.mp ended⟩
    · cases found
  · rintro ⟨spaces, found, ended⟩
    rw [read]
    simp only [found, Option.bind_eq_bind, Option.bind_some, ended]
    rfl

theorem read_eq_some {text : String} {document : Json}
    (found : readValue (text.toList.length + 1) text.toList = some (document, [])) :
    read text = some document :=
  read_eq_some_iff.mpr ⟨[], found, rfl⟩

theorem read_writeText (text : String) : read (writeText text) = some (.string (some text)) := by
  apply read_eq_some
  rw [toList_writeText, readValue]
  have start (tail : List Char) : skipSpace ('\x22' :: tail) = '\x22' :: tail := rfl
  simp only [start, readText_escaped]
  rfl

/-! ## Numbers -/

/-- A positive number is written without a zero in front. -/
theorem head?_toDigits_ne (n : Nat) (positive : 0 < n) : (Nat.toDigits 10 n).head? ≠ some '0' := by
  induction n using Nat.strongRecOn with
  | ind n ih =>
      by_cases small : n < 10
      · rw [Nat.toDigits_of_lt_base small, List.head?_cons]
        have digits : ∀ n < 10, 0 < n → some n.digitChar ≠ some '0' := by decide
        exact digits n small positive
      · have upper := ih (n / 10) (by omega) (by omega)
        rw [Nat.toDigits_of_base_le (by decide) (Nat.le_of_not_lt small), List.head?_append]
        cases first : (Nat.toDigits 10 (n / 10)).head? with
        | none => exact absurd (List.head?_eq_none_iff.mp first) Nat.toDigits_ne_nil
        | some ch =>
            rw [first] at upper
            exact upper

theorem toDigits_ne_zero_cons (n : Nat) (next : Char) (later : List Char) :
    Nat.toDigits 10 n ≠ '0' :: next :: later := by
  intro zero
  rcases Nat.eq_zero_or_pos n with rfl | positive
  · cases zero
  · exact head?_toDigits_ne n positive (zero ▸ rfl)

/-- A document that starts with a digit is a number. -/
theorem readValue_of_isDigit {ch : Char} (digit : Text.isDigit ch = true) (fuel : Nat)
    (later : List Char) :
    readValue (fuel + 1) (ch :: later) = readNumber false (ch :: later) := by
  have noSpace : isSpace ch = false := by
    rw [Bool.eq_false_iff]
    intro space
    simp only [isSpace, Bool.or_eq_true, beq_iff_eq] at space
    obtain ((rfl | rfl) | rfl) | rfl := space <;> cases digit
  have start : skipSpace (ch :: later) = ch :: later :=
    List.dropWhile_cons_of_neg (by simp [noSpace])
  rw [readValue, start]
  split
  case h_8 => rfl
  all_goals
    rename_i same
    cases same
    cases digit

theorem read_writeNatural (n : Nat) : read (writeNatural n) = some (.number (.ofNat n)) := by
  apply read_eq_some
  rw [writeNatural, Nat.toList_repr]
  obtain ⟨nonempty, areDigits⟩ := Grammar.digits_toDigits n
  obtain ⟨ch, later, digits⟩ := List.exists_cons_of_ne_nil nonempty
  have whole : readWhole (Nat.toDigits 10 n) = some (Nat.toDigits 10 n, []) := by
    apply readWhole_eq_some_iff.mpr
    refine ⟨?_, nonempty, toDigits_ne_zero_cons n⟩
    rw [readDigits, List.takeWhile_eq_self_iff.mpr areDigits,
      List.dropWhile_eq_nil_iff.mpr areDigits]
  rw [digits] at areDigits ⊢
  rw [readValue_of_isDigit (areDigits ch List.mem_cons_self), ← digits, readNumber, whole]
  simp [readFraction, readExponent, JsonNumber.ofNat]

theorem read_writeOption {α : Type} {write : α → String} {document : α → Json}
    (written : ∀ value, read (write value) = some (document value)) (value : Option α) :
    read (writeOption write value) = some ((value.map document).getD .null) := by
  cases value with
  | none =>
      have null : "null".toList = ['n', 'u', 'l', 'l'] := by simp
      apply read_eq_some
      rw [writeOption, null]
      rfl
  | some value => exact written value

/-! ## Objects -/

/-- The text of a member of an object. -/
def memberText (member : String × String) : List Char :=
  '\x22' :: (member.1.toList.flatMap escapeChar ++ '\x22' :: ':' :: member.2.toList)

theorem toList_writeObject (members : List (String × String)) :
    (writeObject members).toList =
      '\x7b' :: ([','].intercalate (members.map memberText) ++ ['\x7d']) := by
  have each : members.map (String.toList ∘ fun member => writeText member.1 ++ ":" ++ member.2) =
      members.map memberText := by
    apply List.map_congr_left
    intro member _
    simp [memberText, toList_writeText]
  simp only [writeObject, String.toList_append, String.toList_intercalate, List.map_map, each]
  rfl

/-- The document that is read for a member of an object. -/
def memberDocument (member : String × String) : JsonText × Json :=
  (some member.1, (read member.2).getD .null)

theorem skipSpace_blank_append {spaces : List Char} (blank : skipSpace spaces = [])
    (more : List Char) :
    skipSpace (spaces ++ more) = skipSpace more := by
  unfold skipSpace at *
  rw [List.dropWhile_append, blank]
  rfl

/-- The text of a member goes on with a comma or a brace. -/
theorem readMember_memberText {member : String × String}
    (isDocument : (read member.2).isSome = true) {fuel : Nat}
    (enough : member.2.toList.length < fuel) {more : List Char} (ends : EndsNumber more) :
    ∃ spaces, skipSpace spaces = [] ∧
      readMember (readValue fuel) (memberText member ++ more) =
        some (memberDocument member, spaces ++ more) := by
  obtain ⟨document, found⟩ := Option.isSome_iff_exists.mp isDocument
  obtain ⟨spaces, read, blank⟩ := read_eq_some_iff.mp found
  refine ⟨spaces, blank, ?_⟩
  have quote (tail : List Char) : skipSpace ('\x22' :: tail) = '\x22' :: tail := rfl
  have colon (tail : List Char) : skipSpace (':' :: tail) = ':' :: tail := rfl
  simp only [readMember, memberText, List.cons_append, List.append_assoc, quote, readText_escaped,
    Option.bind_eq_bind, Option.bind_some, colon, extends_readValue ends enough _ _ _ read]
  rw [memberDocument, found]
  rfl

theorem readMembers_intercalate {members : List (String × String)} (nonempty : members ≠ [])
    (areDocuments : ∀ member ∈ members, (read member.2).isSome = true) {fuel rounds : Nat}
    (enough : ∀ member ∈ members, member.2.toList.length < fuel)
    (enoughRounds : members.length ≤ rounds) (rest : List Char) :
    readMembers (readValue fuel) rounds
      ([','].intercalate (members.map memberText) ++ '\x7d' :: rest) =
      some (members.map memberDocument, rest) := by
  induction members generalizing rounds with
  | nil => exact absurd rfl nonempty
  | cons member members ih =>
      obtain ⟨isDocument, areDocuments⟩ := List.forall_mem_cons.mp areDocuments
      obtain ⟨enoughFirst, enough⟩ := List.forall_mem_cons.mp enough
      cases rounds with
      | zero => cases enoughRounds
      | succ rounds =>
          rw [readMembers]
          cases members with
          | nil =>
              have ends : EndsNumber ('\x7d' :: rest) := by
                rintro ch ⟨⟩
                decide
              have brace : skipSpace ('\x7d' :: rest) = '\x7d' :: rest := rfl
              obtain ⟨spaces, blank, first⟩ := readMember_memberText isDocument enoughFirst ends
              rw [List.map_cons, List.map_nil, List.intercalate_singleton, first]
              simp only [Option.bind_eq_bind, Option.bind_some, skipSpace_blank_append blank, brace]
              rfl
          | cons next members =>
              have later :=
                ih (List.cons_ne_nil _ _) areDocuments enough (Nat.le_of_succ_le_succ enoughRounds)
              rw [List.map_cons, List.map_cons, List.intercalate_cons_cons, List.append_assoc,
                List.append_assoc, List.singleton_append, ← List.map_cons]
              generalize [','].intercalate ((next :: members).map memberText) ++ '\x7d' :: rest =
                more at later ⊢
              have ends : EndsNumber (',' :: more) := by
                rintro ch ⟨⟩
                decide
              have comma : skipSpace (',' :: more) = ',' :: more := rfl
              obtain ⟨spaces, blank, first⟩ := readMember_memberText isDocument enoughFirst ends
              rw [first]
              simp only [Option.bind_eq_bind, Option.bind_some, skipSpace_blank_append blank, comma,
                later]
              rfl

/-- The text of an object is long enough for its number to bound the nesting and the members in
it. -/
theorem length_members (members : List (String × String)) :
    members.length ≤ ([','].intercalate (members.map memberText)).length ∧
      ∀ member ∈ members,
        member.2.toList.length ≤ ([','].intercalate (members.map memberText)).length := by
  induction members with
  | nil => exact ⟨Nat.le_refl 0, List.forall_mem_nil _⟩
  | cons member members ih =>
      have first : member.2.toList.length < (memberText member).length := by
        simp only [memberText, List.length_cons, List.length_append]
        omega
      rw [List.forall_mem_cons]
      cases members with
      | nil =>
          rw [List.map_cons, List.map_nil, List.intercalate_singleton, List.length_singleton]
          exact ⟨by omega, Nat.le_of_lt first, List.forall_mem_nil _⟩
      | cons next members =>
          obtain ⟨count, each⟩ := ih
          rw [List.map_cons, List.map_cons, List.intercalate_cons_cons, ← List.map_cons]
          simp only [List.length_append, List.length_cons, List.length_nil] at count ⊢
          refine ⟨by omega, by omega, fun other mem => ?_⟩
          have bound := each other mem
          omega

theorem readObject_intercalate {members : List (String × String)}
    (areDocuments : ∀ member ∈ members, (read member.2).isSome = true) {fuel rounds : Nat}
    (enough : ∀ member ∈ members, member.2.toList.length < fuel)
    (enoughRounds : members.length ≤ rounds) (rest : List Char) :
    readObject (readValue fuel) rounds
      ([','].intercalate (members.map memberText) ++ '\x7d' :: rest) =
      some (.object (members.map memberDocument), rest) := by
  cases members with
  | nil => rfl
  | cons member members =>
      have isRead :=
        readMembers_intercalate (List.cons_ne_nil _ _) areDocuments enough enoughRounds rest
      obtain ⟨tail, quote⟩ : ∃ tail,
          [','].intercalate ((member :: members).map memberText) ++ '\x7d' :: rest =
            '\x22' :: tail := by
        cases members with
        | nil => exact ⟨_, rfl⟩
        | cons next members =>
            rw [List.map_cons, List.map_cons, List.intercalate_cons_cons]
            exact ⟨_, rfl⟩
      have noBrace : skipSpace ('\x22' :: tail) = '\x22' :: tail := rfl
      rw [quote] at isRead ⊢
      rw [readObject, noBrace]
      change (readMembers (readValue fuel) rounds ('\x22' :: tail) >>= _) = _
      rw [isRead]
      rfl

/-- An object is read back with its members, when the texts of their values are documents. -/
theorem read_writeObject {members : List (String × String)}
    (areDocuments : ∀ member ∈ members, (read member.2).isSome = true) :
    read (writeObject members) = some (.object (members.map memberDocument)) := by
  obtain ⟨count, each⟩ := length_members members
  have start (tail : List Char) : skipSpace ('\x7b' :: tail) = '\x7b' :: tail := rfl
  apply read_eq_some
  rw [toList_writeObject, readValue]
  simp only [start]
  apply readObject_intercalate areDocuments
  · intro member mem
    have bound := each member mem
    simp only [List.length_cons, List.length_append, List.length_nil]
    omega
  · simp only [List.length_cons, List.length_append, List.length_nil]
    omega

end RecordLisp.Json
