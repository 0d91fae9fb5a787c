import RecordLisp.Proofs.Effect
import RecordLisp.Source.Reader

/-!
# Scanners and the reader move forward

Whatever passing one character keeps true of a cursor, every scanner keeps true, and so does the
reader. A fault is reported where a cursor stands or stood, so its position is that of a cursor of
which it is true as well. Reading never goes back, for one, and it never leaves the text.
-/

namespace RecordLisp

namespace Cursor

/-- A property of cursors that passing a character keeps. -/
structure Forward (kept : Cursor → Prop) : Prop where
  next : ∀ {ch : Char} {rest : List Char} {position : Position},
    kept ⟨ch :: rest, position⟩ → kept ⟨rest, position.next ch⟩

/-- Whether a position is that of a cursor with a property. -/
def Marks (kept : Cursor → Prop) (position : Position) : Prop :=
  ∃ cursor, kept cursor ∧ cursor.position = position

/-- Whether a scan stops at a cursor with a property, and reports the position of one when it
fails. -/
structure StopsWith {α : Type} (kept : Cursor → Prop) (scanned : Scanned α) : Prop where
  stops : kept scanned.2
  fails : ∀ fault, scanned.1 = .error fault → Marks kept fault.position

section Results

variable {α : Type} {kept : Cursor → Prop} {cursor : Cursor}

theorem stopsWith_ok (stands : kept cursor) (value : α) :
    StopsWith kept ((.ok value, cursor) : Scanned α) :=
  ⟨stands, fun _ same => by cases same⟩

theorem stopsWith_error (stands : kept cursor) {fault : Fault} (marks : Marks kept fault.position) :
    StopsWith kept ((.error fault, cursor) : Scanned α) :=
  ⟨stands, fun _ same => by cases same; exact marks⟩

theorem stopsWith_finish (stands : kept cursor) {value : Except Fault Leaf}
    (marks : ∀ fault, value = .error fault → Marks kept fault.position) :
    StopsWith kept (finish value cursor) := by
  unfold finish
  split
  · exact ⟨stands, marks⟩
  · exact stopsWith_error stands ⟨cursor, stands, rfl⟩

/-- Whatever the value of a scan is changed to, it stops and fails where it did. -/
theorem StopsWith.map {scanned : Scanned α} (scan : StopsWith kept scanned) (change : α → α) :
    StopsWith kept ((scanned.1.map change, scanned.2) : Scanned α) := by
  obtain ⟨result, after⟩ := scanned
  cases result with
  | ok value => exact stopsWith_ok scan.stops _
  | error fault => exact stopsWith_error scan.stops (scan.fails fault rfl)

end Results

namespace Forward

/-! ## Scanners -/

variable {kept : Cursor → Prop} {cursor : Cursor} (forward : Forward kept)
include forward

theorem advance (stands : kept cursor) : kept cursor.advance := by
  obtain ⟨rest, position⟩ := cursor
  cases rest with
  | nil => exact stands
  | cons ch rest => exact forward.next stands

theorem skipWhile (test : Char → Bool) {rest : List Char} {position : Position}
    (stands : kept ⟨rest, position⟩) : kept (Cursor.skipWhile test rest position) := by
  induction rest generalizing position with
  | nil => exact stands
  | cons ch rest ih =>
      unfold Cursor.skipWhile
      split
      · exact ih (forward.next stands)
      · exact stands

theorem advanceWhile (stands : kept cursor) (test : Char → Bool) :
    kept (cursor.advanceWhile test) :=
  forward.skipWhile test stands

theorem skipTriviaFrom (inComment : Bool) {rest : List Char} {position : Position}
    (stands : kept ⟨rest, position⟩) : kept (Cursor.skipTriviaFrom inComment rest position) := by
  induction rest generalizing inComment position with
  | nil => exact stands
  | cons ch rest ih =>
      unfold Cursor.skipTriviaFrom
      split
      · exact ih _ (forward.next stands)
      · split
        · exact ih _ (forward.next stands)
        · split
          · exact ih _ (forward.next stands)
          · exact stands

theorem skipTrivia (stands : kept cursor) : kept cursor.skipTrivia :=
  forward.skipTriviaFrom false stands

theorem scanToken (stands : kept cursor) : kept cursor.scanToken.2 :=
  forward.advanceWhile stands _

theorem scanUnsigned {start digits : Cursor} (atStart : kept start) (atDigits : kept digits)
    (negative : Bool) : StopsWith kept (Cursor.scanUnsigned start digits negative) := by
  have whole := forward.advanceWhile atDigits Text.isDigit
  unfold Cursor.scanUnsigned
  dsimp only
  split
  · have fraction := forward.advanceWhile (forward.advance whole) Text.isDigit
    exact stopsWith_finish fraction fun _ same => by cases same
  · apply stopsWith_finish whole
    intro fault failed
    unfold integerLiteral at failed
    dsimp only at failed
    split at failed
    · cases failed
    · cases failed
      exact ⟨start, atStart, rfl⟩

theorem scanNumber (stands : kept cursor) : StopsWith kept cursor.scanNumber := by
  unfold Cursor.scanNumber
  split
  · split
    · exact forward.scanUnsigned stands (forward.advance stands) true
    · exact stopsWith_ok (forward.scanToken stands) _
  · exact forward.scanUnsigned stands stands false

theorem scanCharacters {rest : List Char} {position : Position} (stands : kept ⟨rest, position⟩) :
    StopsWith kept (Cursor.scanCharacters rest position) := by
  fun_induction Cursor.scanCharacters rest position with
  | case1 position => exact stopsWith_error stands ⟨_, stands, rfl⟩
  | case2 position rest => exact stopsWith_ok (forward.next stands) _
  | case3 position =>
      have behind := forward.next stands
      exact stopsWith_error behind ⟨_, behind, rfl⟩
  | case4 position rest result after position' _ position'' scanned ih =>
      have inner := ih (forward.next (forward.next stands))
      rw [scanned] at inner
      exact inner.map _
  | case5 position rest result after position' _ _ position'' scanned ih =>
      have inner := ih (forward.next (forward.next stands))
      rw [scanned] at inner
      exact inner.map _
  | case6 position escaped rest =>
      have behind := forward.next stands
      exact stopsWith_error (forward.next behind) ⟨_, behind, rfl⟩
  | case7 ch rest position position' noQuote noEscape result after scanned ih =>
      have inner := ih (forward.next stands)
      rw [scanned] at inner
      exact inner.map _

theorem scanString (stands : kept cursor) : StopsWith kept cursor.scanString := by
  have inside :
      StopsWith kept (Cursor.scanCharacters cursor.advance.rest cursor.advance.position) :=
    forward.scanCharacters (forward.advance stands)
  unfold Cursor.scanString
  dsimp only
  split
  · rename_i fault after scanned
    rw [scanned] at inside
    exact stopsWith_error inside.stops (inside.fails fault rfl)
  · rename_i characters after scanned
    rw [scanned] at inside
    exact stopsWith_finish inside.stops fun _ same => by cases same

theorem scanLeaf (stands : kept cursor) : StopsWith kept cursor.scanLeaf := by
  unfold Cursor.scanLeaf
  split
  · exact forward.scanString stands
  · split
    · exact forward.scanNumber stands
    · exact stopsWith_ok (forward.scanToken stands) _

end Forward

end Cursor

/-! ## The reader -/

namespace ReadM

open Effect Cursor

variable {α β : Type} {kept : Cursor → Prop}

/-- Whether an action keeps a property of the cursor, and reports the position of a cursor with it
when it fails. -/
def Stays (kept : Cursor → Prop) (action : ReadM α) : Prop :=
  ∀ state : ReadState, kept state.cursor →
    kept (outcome action state).2.cursor ∧
      ∀ fault, (outcome action state).1 = .error fault → Marks kept fault.position

theorem stays_pure (value : α) : Stays kept (pure value) :=
  fun _ stands => ⟨stands, fun _ same => by cases same⟩

theorem stays_throw {fault : Fault} (marks : Marks kept fault.position) :
    Stays kept (throw fault : ReadM α) :=
  fun _ stands => ⟨stands, fun _ same => by cases same; exact marks⟩

theorem Stays.bind {action : ReadM α} {next : α → ReadM β} (first : Stays kept action)
    (goesOn : ∀ value, Stays kept (next value)) : Stays kept (action >>= next) := by
  intro state stands
  obtain ⟨stays, fails⟩ := first state stands
  rw [outcome_bind]
  cases ran : outcome action state with
  | mk result after =>
      rw [ran] at stays fails
      cases result with
      | ok value => exact goesOn value after stays
      | error fault => exact ⟨stays, fun _ same => by cases same; exact fails fault rfl⟩

theorem stays_cursor {next : Cursor → ReadM β}
    (goesOn : ∀ cursor : Cursor, kept cursor → Stays kept (next cursor)) :
    Stays kept (cursor >>= next) := by
  intro state stands
  have reads : outcome cursor state = (.ok state.cursor, state) := rfl
  rw [outcome_bind_of_ok reads]
  exact goesOn state.cursor stands state stands

theorem stays_fail (cause : SyntaxFault) : Stays kept (fail cause : ReadM α) :=
  stays_cursor fun cursor stands => stays_throw ⟨cursor, stands, rfl⟩

theorem stays_alloc (record : Record) : Stays kept (alloc record) :=
  fun _ stands => ⟨stands, fun _ same => by cases same⟩

section Parts

variable (forward : Forward kept)
include forward

theorem stays_advance : Stays kept advance :=
  fun _ stands => ⟨forward.advance stands, fun _ same => by cases same⟩

theorem stays_skipTrivia : Stays kept skipTrivia :=
  fun _ stands => ⟨forward.skipTrivia stands, fun _ same => by cases same⟩

theorem stays_scanLeaf : Stays kept (scan Cursor.scanLeaf) := by
  apply stays_cursor
  intro cursor stands state _
  have scans := forward.scanLeaf stands
  cases scanned : cursor.scanLeaf with
  | mk result after =>
      rw [scanned] at scans
      cases result with
      | ok value => exact ⟨scans.stops, fun _ same => by cases same⟩
      | error fault => exact ⟨scans.stops, fun _ same => by cases same; exact scans.fails fault rfl⟩

theorem stays_modifier : Stays kept modifier := by
  apply stays_cursor
  intro cursor _
  split
  · exact (stays_advance forward).bind fun _ => stays_pure _
  · exact stays_pure _

theorem stays_leaf (modifier : Modifier) : Stays kept (leaf modifier) := by
  apply stays_cursor
  intro start stands
  apply (stays_scanLeaf forward).bind
  intro value
  split
  · exact stays_throw ⟨start, stands, rfl⟩
  · split
    · exact stays_throw ⟨start, stands, rfl⟩
    · exact stays_pure _

variable {read : ReadM Atom} (reader : Stays kept read)
include reader

theorem stays_items {opened : Position} (marks : Marks kept opened) (rounds : Nat) :
    Stays kept (items read opened rounds) := by
  induction rounds with
  | zero => exact stays_throw marks
  | succ rounds ih =>
      refine (stays_skipTrivia forward).bind fun _ => stays_cursor fun cursor _ => ?_
      split
      · exact stays_throw marks
      · exact (stays_advance forward).bind fun _ => stays_pure _
      · exact reader.bind fun _ => ih.bind fun _ => stays_pure _

theorem stays_entries {opened : Position} (marks : Marks kept opened) (rounds : Nat)
    (record : Record) : Stays kept (entries read opened rounds record) := by
  induction rounds generalizing record with
  | zero => exact stays_throw marks
  | succ rounds ih =>
      refine (stays_skipTrivia forward).bind fun _ => stays_cursor fun start stands => ?_
      split
      · exact stays_throw marks
      · exact (stays_advance forward).bind fun _ => stays_pure _
      · refine reader.bind fun entry => ?_
        split
        · exact stays_throw ⟨start, stands, rfl⟩
        · exact ih _

theorem stays_body (rounds : Nat) (modifier : Modifier) :
    Stays kept (body read rounds modifier) := by
  apply stays_cursor
  intro start stands
  have marks : Marks kept start.position := ⟨start, stands, rfl⟩
  split
  · exact stays_fail _
  · exact (stays_advance forward).bind fun _ =>
      (stays_items forward reader marks rounds).bind fun _ => stays_pure _
  · split
    · exact stays_fail _
    · exact (stays_advance forward).bind fun _ =>
        (stays_entries forward reader marks rounds _).bind fun _ =>
          (stays_alloc _).bind fun _ => stays_pure _
  · exact stays_fail _
  · exact stays_fail _
  · exact stays_leaf forward modifier

theorem stays_access (target : Atom) : Stays kept (access read target) := by
  refine (stays_skipTrivia forward).bind fun _ => stays_cursor fun cursor _ => ?_
  split
  · refine (stays_advance forward).bind fun _ => stays_cursor fun start stands => ?_
    refine reader.bind fun field => ?_
    split
    · exact stays_throw ⟨start, stands, rfl⟩
    · exact stays_pure _
  · exact stays_pure _

theorem stays_step (rounds : Nat) : Stays kept (step read rounds) := by
  refine (stays_skipTrivia forward).bind fun _ => (stays_modifier forward).bind fun modifier => ?_
  refine (stays_body forward reader rounds modifier).bind fun target => ?_
  exact (stays_access forward reader target).bind fun _ => stays_pure _

end Parts

theorem stays_atom (forward : Forward kept) (fuel : Nat) : Stays kept (atom fuel) := by
  induction fuel with
  | zero => exact stays_fail _
  | succ fuel ih => exact stays_step forward ih fuel

theorem stays_program (forward : Forward kept) (fuel : Nat) : Stays kept (program fuel) := by
  refine (stays_skipTrivia forward).bind fun _ => stays_cursor fun cursor _ => ?_
  split
  · exact stays_fail _
  · refine (stays_atom forward fuel).bind fun _ => (stays_skipTrivia forward).bind fun _ => ?_
    apply stays_cursor
    intro cursor _
    split
    · exact stays_pure _
    · exact stays_fail _

end ReadM

end RecordLisp
