import RecordLisp.Proofs.Source.Reading

/-!
# The bound on reading is never met

Every nested or following atom starts at least one character further on. A reader whose bound
exceeds the number of characters therefore gives the same for every larger bound, with the same
fault at the same place when it fails.
-/

namespace RecordLisp

open Effect

namespace Grammar

theorem Marked.isSuffix {input inner : List Char} {modifier : Modifier}
    (marked : Marked input modifier inner) : inner <:+ input := by
  cases marked with
  | marked => exact List.suffix_cons _ _
  | unmarked => exact List.suffix_rfl

end Grammar

namespace ReadM

variable {α β : Type}

/-- Sequences agree when their first parts do and what follows agrees where the first part leads. -/
theorem outcome_bind_congr {first first' : ReadM α} {next next' : α → ReadM β} {state : ReadState}
    (same : outcome first state = outcome first' state)
    (goesOn : ∀ value after, Gives first state value after →
      outcome (next value) after = outcome (next' value) after) :
    outcome (first >>= next) state = outcome (first' >>= next') state := by
  rw [outcome_bind, outcome_bind, ← same]
  cases ran : outcome first state with
  | mk result after =>
      cases result with
      | error fault => rfl
      | ok value => exact goesOn value after ran

/-- Two readers of atoms that do the same on texts shorter than a bound, where both follow the
grammar. -/
structure Agree (bound : Nat) (read other : ReadM Atom) : Prop where
  same : ∀ state : ReadState, state.cursor.rest.length < bound →
    outcome read state = outcome other state
  follows : FollowsGrammar read bound

theorem length_skipTrivia (cursor : Cursor) : cursor.skipTrivia.rest.length ≤ cursor.rest.length :=
  ((Grammar.skips_iff cursor.position).mpr rfl).length_le

theorem length_advance {cursor : Cursor} {ch : Char} (next : cursor.peek? = some ch) :
    cursor.advance.rest.length < cursor.rest.length := by
  obtain ⟨input, position⟩ := cursor
  cases input with
  | nil => cases next
  | cons ch rest => exact Nat.lt_succ_self rest.length

/-- A modifier is taken off without fail. -/
theorem exists_gives_modifier (state : ReadState) :
    ∃ mark after, Gives modifier state mark after ∧ after.heap = state.heap ∧
      Grammar.Marked state.cursor.rest mark after.cursor.rest := by
  have unfolded : outcome modifier state = _ := outcome_bind_of_ok rfl
  unfold Gives
  rw [unfolded]
  cases marks : state.cursor.peek?.bind Modifier.ofChar? with
  | none =>
      refine ⟨.plain, state, rfl, rfl, .unmarked fun ch next => ?_⟩
      have peeked : state.cursor.peek? = some ch := next
      rwa [peeked] at marks
  | some mark =>
      refine ⟨mark, { state with cursor := state.cursor.advance }, rfl, rfl, ?_⟩
      obtain ⟨ch, next, marks⟩ := Option.bind_eq_some_iff.mp marks
      obtain ⟨⟨input, position⟩, heap⟩ := state
      cases input with
      | nil => cases next
      | cons first inner =>
          cases next
          exact .marked marks

section Parts

variable {bound more : Nat} {read other : ReadM Atom} (agree : Agree bound read other)
include agree

/-- Reading an atom takes at least one character. -/
theorem Agree.shorter {state after : ReadState} {value : Atom}
    (short : state.cursor.rest.length < bound) (given : Gives read state value after) :
    after.cursor.rest.length < state.cursor.rest.length := by
  obtain ⟨⟨input, position⟩, heap⟩ := state
  obtain ⟨⟨rest, position'⟩, heap'⟩ := after
  obtain ⟨tree, atom, _⟩ :=
    (agree.follows input position heap heap' value rest short).mp ⟨position', given⟩
  exact atom.length_lt

/-- Each item takes at least one character, so the rounds of the list suffice. -/
theorem Agree.items (opened : Position) {rounds : Nat} (le : rounds ≤ bound) {state : ReadState}
    (short : state.cursor.rest.length < rounds) :
    outcome (ReadM.items read opened rounds) state =
      outcome (ReadM.items other opened (rounds + more)) state := by
  induction rounds generalizing state with
  | zero => exact absurd short (Nat.not_lt_zero _)
  | succ rounds ih =>
      rw [Nat.succ_add]
      have few : state.cursor.skipTrivia.rest.length ≤ rounds :=
        Nat.le_trans (length_skipTrivia state.cursor) (Nat.le_of_lt_succ short)
      unfold ReadM.items
      refine outcome_bind_congr rfl fun _ skipped given => outcome_bind_congr rfl fun _ _ same => ?_
      have atSkipped : skipped.cursor = state.cursor.skipTrivia := by cases given; rfl
      cases same
      rw [← atSkipped] at few
      split
      · rfl
      · rfl
      · have inside : skipped.cursor.rest.length < bound := Nat.lt_of_le_of_lt few le
        refine outcome_bind_congr (agree.same skipped inside) fun item after given => ?_
        have less := agree.shorter inside given
        exact outcome_bind_congr (ih (Nat.le_of_succ_le le) (Nat.lt_of_lt_of_le less few))
          fun _ _ _ => rfl

theorem Agree.entries (opened : Position) {rounds : Nat} (le : rounds ≤ bound) {state : ReadState}
    (short : state.cursor.rest.length < rounds) (record : Record) :
    outcome (ReadM.entries read opened rounds record) state =
      outcome (ReadM.entries other opened (rounds + more) record) state := by
  induction rounds generalizing state record with
  | zero => exact absurd short (Nat.not_lt_zero _)
  | succ rounds ih =>
      rw [Nat.succ_add]
      have few : state.cursor.skipTrivia.rest.length ≤ rounds :=
        Nat.le_trans (length_skipTrivia state.cursor) (Nat.le_of_lt_succ short)
      unfold ReadM.entries
      refine outcome_bind_congr rfl fun _ skipped given => outcome_bind_congr rfl fun _ _ same => ?_
      have atSkipped : skipped.cursor = state.cursor.skipTrivia := by cases given; rfl
      cases same
      rw [← atSkipped] at few
      split
      · rfl
      · rfl
      · have inside : skipped.cursor.rest.length < bound := Nat.lt_of_le_of_lt few le
        refine outcome_bind_congr (agree.same skipped inside) fun entry after given => ?_
        have less := agree.shorter inside given
        cases ReadM.field entry with
        | error cause => rfl
        | ok named => exact ih (Nat.le_of_succ_le le) (Nat.lt_of_lt_of_le less few) _

theorem Agree.body (modifier : Modifier) {state : ReadState}
    (short : state.cursor.rest.length ≤ bound) :
    outcome (ReadM.body read bound modifier) state =
      outcome (ReadM.body other (bound + more) modifier) state := by
  let advanced : ReadState := { state with cursor := state.cursor.advance }
  have inside {ch : Char} (next : state.cursor.peek? = some ch) :
      advanced.cursor.rest.length < bound :=
    Nat.lt_of_lt_of_le (length_advance next) short
  unfold ReadM.body
  refine outcome_bind_congr rfl fun _ _ same => ?_
  cases same
  split
  · rfl
  · rename_i next
    change outcome (ReadM.items read _ bound >>= _) advanced = outcome (ReadM.items other _ _ >>= _)
      advanced
    exact outcome_bind_congr (agree.items _ (Nat.le_refl bound) (inside next)) fun _ _ _ => rfl
  · rename_i next
    split
    · rfl
    · change outcome (ReadM.entries read _ bound _ >>= _) advanced =
        outcome (ReadM.entries other _ _ _ >>= _) advanced
      exact outcome_bind_congr (agree.entries _ (Nat.le_refl bound) (inside next) _)
        fun _ _ _ => rfl
  · rfl
  · rfl
  · rfl

theorem Agree.access (target : Atom) {state : ReadState}
    (short : state.cursor.rest.length ≤ bound) :
    outcome (ReadM.access read target) state = outcome (ReadM.access other target) state := by
  let skipped : ReadState := { state with cursor := state.cursor.skipTrivia }
  have few : skipped.cursor.rest.length ≤ bound :=
    Nat.le_trans (length_skipTrivia state.cursor) short
  have unfolded (read : ReadM Atom) : outcome (ReadM.access read target) state =
      outcome (if skipped.cursor.peek? = some '.' then do
          advance
          let start ← cursor
          let field ← read
          if field.modifier = .expand then throw (start.fault .modifierOnField)
          else return target.join field
        else return target) skipped := rfl
  rw [unfolded, unfolded]
  clear_value skipped
  split
  · rename_i next
    let advanced : ReadState := { skipped with cursor := skipped.cursor.advance }
    have inside : advanced.cursor.rest.length < bound :=
      Nat.lt_of_lt_of_le (length_advance next) few
    change outcome (read >>= _) advanced = outcome (other >>= _) advanced
    exact outcome_bind_congr (agree.same advanced inside) fun _ _ _ => rfl
  · rfl

theorem Agree.step {state : ReadState} (short : state.cursor.rest.length ≤ bound) :
    outcome (ReadM.step read bound) state = outcome (ReadM.step other (bound + more)) state := by
  let skipped : ReadState := { state with cursor := state.cursor.skipTrivia }
  have few : skipped.cursor.rest.length ≤ bound :=
    Nat.le_trans (length_skipTrivia state.cursor) short
  change outcome (modifier >>= fun mark => ReadM.body read bound mark >>= _) skipped =
    outcome (modifier >>= fun mark => ReadM.body other (bound + more) mark >>= _) skipped
  obtain ⟨mark, marked, given, _, marks⟩ := exists_gives_modifier skipped
  rw [outcome_bind_of_ok given, outcome_bind_of_ok given]
  have inside := Nat.le_trans marks.isSuffix.length_le few
  refine outcome_bind_congr (agree.body mark inside) fun target after given => ?_
  refine outcome_bind_congr (agree.access target ?_) fun _ _ _ => rfl
  obtain ⟨⟨input, position⟩, heap⟩ := marked
  obtain ⟨⟨rest, position'⟩, heap'⟩ := after
  obtain ⟨tree, isBody, _⟩ :=
    (body_iff agree.follows mark bound position heap target inside inside).mp ⟨position', given⟩
  exact Nat.le_trans (Nat.le_of_lt isBody.length_lt) inside

end Parts

end ReadM

end RecordLisp
