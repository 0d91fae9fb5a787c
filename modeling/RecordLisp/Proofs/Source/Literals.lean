import RecordLisp.Proofs.Source.Bound
import RecordLisp.Proofs.Source.Forward
import RecordLisp.Proofs.Source.RoundTrip

/-!
# Literals and the records made of them

A record literal becomes a record as soon as its closing bracket is read, also in a text that turns
out not to be a program. Which literals these are can be said without running anything:
`Grammar.AtomCloses` follows the text from where an atom is expected to where the entries of a
closed literal start. What reading adds to the heap is one record for each such place.
-/

namespace RecordLisp

open Effect

/-- A list of a name and another atom, as the entries of record literals are. -/
def Tree.IsEntry (tree : Tree) : Prop :=
  ∃ onEntry onName leaf name value, tree = .list onEntry [.leaf onName leaf, value] ∧
    (leaf = .token name ∨ leaf = .string name)

namespace Grammar

mutual

/-- Where an atom is expected, the closing bracket of a literal is reached whose entries start at
the second text. The atom itself need not end. -/
inductive AtomCloses : List Char → List Char → Prop where
  | body {input marked inner inside : List Char} {modifier : Modifier} :
      Skips input marked → Marked marked modifier inner → BodyCloses modifier inner inside →
      AtomCloses input inside
  | field {input middle inner inside : List Char} {modifier : Modifier} {first : Tree} :
      Segment input modifier first middle → Skips middle ('.' :: inner) → AtomCloses inner inside →
      AtomCloses input inside

/-- The closing bracket is reached in what stands behind a modifier, or it ends it. -/
inductive BodyCloses : Modifier → List Char → List Char → Prop where
  | items {modifier : Modifier} {input inside : List Char} :
      ItemsClose input inside → BodyCloses modifier ('(' :: input) inside
  | entries {input inside : List Char} :
      EntriesClose input inside → BodyCloses .plain ('[' :: input) inside
  | whole {input rest : List Char} {fields : List (String × Tree)} :
      Entries input fields rest → BodyCloses .plain ('[' :: input) input

/-- The closing bracket is reached in the next item of a list, or behind it. -/
inductive ItemsClose : List Char → List Char → Prop where
  | here {input inside : List Char} : AtomCloses input inside → ItemsClose input inside
  | later {input middle inside : List Char} {item : Tree} :
      Atom input item middle → ItemsClose middle inside → ItemsClose input inside

/-- The closing bracket is reached in the next entry of a literal, or behind it. -/
inductive EntriesClose : List Char → List Char → Prop where
  | here {input inside : List Char} : AtomCloses input inside → EntriesClose input inside
  | later {input middle inside : List Char} {entry : Tree} :
      Atom input entry middle → entry.IsEntry → EntriesClose middle inside →
      EntriesClose input inside

end

/-- The closing bracket is reached in the fields behind an atom. -/
def AccessCloses (input inside : List Char) : Prop :=
  ∃ inner, Skips input ('.' :: inner) ∧ AtomCloses inner inside

variable {input seen middle inside : List Char} {modifier : Modifier} {tree : Tree}

theorem atomCloses_iff_of_skips (skips : Skips input seen) :
    AtomCloses input inside ↔ AtomCloses seen inside := by
  constructor
  · intro closes
    cases closes with
    | body skips' marked body =>
        cases skips.unique skips'
        exact .body skips.self marked body
    | field segment point field =>
        obtain ⟨skips', marked, body⟩ := segment
        cases skips.unique skips'
        exact .field (.body skips.self marked body) point field
  · intro closes
    cases closes with
    | body skips' marked body =>
        cases skips.self.unique skips'
        exact .body skips marked body
    | field segment point field =>
        obtain ⟨skips', marked, body⟩ := segment
        cases skips.self.unique skips'
        exact .field (.body skips marked body) point field

/-- What an atom closes is closed by its first segment or by the fields behind that. -/
theorem atomCloses_iff {marked inner : List Char} (skips : Skips input marked)
    (marks : Marked marked modifier inner) :
    AtomCloses input inside ↔ BodyCloses modifier inner inside ∨
      ∃ first middle, Body modifier inner first middle ∧ AccessCloses middle inside := by
  constructor
  · intro closes
    cases closes with
    | body skips' marks' body =>
        cases skips.unique skips'
        obtain ⟨rfl, rfl⟩ := marks.unique marks'
        exact .inl body
    | field segment point field =>
        obtain ⟨skips', marks', body⟩ := segment
        cases skips.unique skips'
        obtain ⟨rfl, rfl⟩ := marks.unique marks'
        exact .inr ⟨_, _, body, _, point, field⟩
  · rintro (body | ⟨first, middle, body, inner', point, field⟩)
    · exact .body skips marks body
    · exact .field (.body skips marks body) point field

theorem itemsClose_iff_of_atom (atom : Atom input tree middle) :
    ItemsClose input inside ↔ AtomCloses input inside ∨ ItemsClose middle inside := by
  constructor
  · intro closes
    cases closes with
    | here closes => exact .inl closes
    | later other closes =>
        obtain ⟨_, rfl⟩ := atom.unique other
        exact .inr closes
  · rintro (closes | closes)
    · exact .here closes
    · exact .later atom closes

theorem entriesClose_iff_of_entry (atom : Atom input tree middle) (entry : tree.IsEntry) :
    EntriesClose input inside ↔ AtomCloses input inside ∨ EntriesClose middle inside := by
  constructor
  · intro closes
    cases closes with
    | here closes => exact .inl closes
    | later other _ closes =>
        obtain ⟨_, rfl⟩ := atom.unique other
        exact .inr closes
  · rintro (closes | closes)
    · exact .here closes
    · exact .later atom entry closes

/-- Where no atom can be read, no item follows the one that is tried. -/
theorem itemsClose_iff_of_noAtom (noAtom : ∀ item rest, ¬ Atom input item rest) :
    ItemsClose input inside ↔ AtomCloses input inside := by
  constructor
  · intro closes
    cases closes with
    | here closes => exact closes
    | later item => exact absurd item (noAtom _ _)
  · exact .here

/-- Where no entry can be read, none follows the one that is tried. -/
theorem entriesClose_iff_of_noEntry
    (noEntry : ∀ entry rest, Atom input entry rest → ¬ entry.IsEntry) :
    EntriesClose input inside ↔ AtomCloses input inside := by
  constructor
  · intro closes
    cases closes with
    | here closes => exact closes
    | later entry isEntry => exact absurd isEntry (noEntry _ _ entry)
  · exact .here

/-- No atom starts at the end of the text or at a closing parenthesis or bracket. -/
def Blocked (seen : List Char) : Prop := ∀ ch ∈ seen.head?, ch = ')' ∨ ch = ']'

theorem Blocked.not_atom (blocked : Blocked seen) (skips : Skips input seen) :
    ¬ Atom input tree middle := by
  intro atom
  obtain ⟨ch, more, rfl, noParenthesis, noBracket, _⟩ := atom.visible skips
  exact (blocked ch rfl).elim noParenthesis noBracket

theorem Blocked.not_body (blocked : Blocked seen) : ¬ Body modifier seen tree middle := by
  intro body
  obtain ⟨ch, more, rfl, noParenthesis, noBracket, _⟩ := body.visible
  exact (blocked ch rfl).elim noParenthesis noBracket

theorem Blocked.not_bodyCloses (blocked : Blocked seen) : ¬ BodyCloses modifier seen inside := by
  intro closes
  cases closes with
  | items => rcases blocked '(' rfl with same | same <;> cases same
  | entries => rcases blocked '[' rfl with same | same <;> cases same
  | whole => rcases blocked '[' rfl with same | same <;> cases same

theorem Blocked.not_atomCloses (blocked : Blocked seen) (skips : Skips input seen) :
    ¬ AtomCloses input inside := by
  have unmarked : Marked seen .plain seen := by
    apply Marked.unmarked
    intro ch mem
    rcases blocked ch mem with rfl | rfl <;> rfl
  rw [atomCloses_iff skips unmarked]
  rintro (closes | ⟨_, _, body, _⟩)
  · exact blocked.not_bodyCloses closes
  · exact blocked.not_body body

theorem Blocked.not_itemsClose (blocked : Blocked seen) (skips : Skips input seen) :
    ¬ ItemsClose input inside := by
  intro closes
  cases closes with
  | here closes => exact blocked.not_atomCloses skips closes
  | later atom => exact blocked.not_atom skips atom

theorem Blocked.not_entriesClose (blocked : Blocked seen) (skips : Skips input seen) :
    ¬ EntriesClose input inside := by
  intro closes
  cases closes with
  | here closes => exact blocked.not_atomCloses skips closes
  | later atom => exact blocked.not_atom skips atom

end Grammar

/-! ## Records made of literals -/

namespace Heap

/-- Whether a record was made, between two heaps, of the literal whose entries start at a text. -/
def MadeFrom (before after : Heap) (id : RecordId) (inside : List Char) : Prop :=
  ∃ fields rest earlier stored, Grammar.Entries inside fields rest ∧ before.Extends earlier ∧
    (Tree.record fields).build earlier = (.record id, stored) ∧ stored.Extends after

variable {before middle after last : Heap} {id : RecordId} {inside : List Char}

theorem MadeFrom.mono (made : middle.MadeFrom after id inside) (begins : before.Extends middle)
    (goesOn : after.Extends last) : before.MadeFrom last id inside := by
  obtain ⟨fields, rest, earlier, stored, entries, starts, built, stays⟩ := made
  exact ⟨fields, rest, earlier, stored, entries, begins.trans starts, built, stays.trans goesOn⟩

/-- The record has the fields of the literal. -/
theorem MadeFrom.exists_record (made : before.MadeFrom after id inside) :
    ∃ fields, after.record id = Record.emptyLiteral.insertAll fields := by
  obtain ⟨trees, rest, earlier, stored, _, _, built, stays⟩ := made
  let fields := (Tree.buildFields trees earlier).1
  let added := (Tree.buildFields trees earlier).2.allocRecord (.insertAll .emptyLiteral fields)
  have used : added.2.HasRecord added.1 := hasRecord_allocRecord_iff.mpr (.inl rfl)
  have filled : added.2.record added.1 = .insertAll .emptyLiteral fields :=
    record_allocRecord_self _ _
  have atom : Atom.record added.1 = .record id := congrArg Prod.fst built
  have heap : added.2 = stored := congrArg Prod.snd built
  injection atom with _ leaf
  injection leaf with same
  rw [same, heap] at used filled
  exact ⟨fields, (stays.record id used).trans filled⟩

theorem MadeFrom.literal (made : before.MadeFrom after id inside) :
    (after.record id).literal = true := by
  obtain ⟨fields, same⟩ := made.exists_record
  rw [same]
  exact Record.literal_insertAll _ _

theorem MadeFrom.noParent (made : before.MadeFrom after id inside) :
    (after.record id).parent = none := by
  obtain ⟨fields, same⟩ := made.exists_record
  rw [same]
  exact Record.parent_insertAll _ _

end Heap

namespace ReadM

variable {α β : Type}

theorem forward_suffix (text : List Char) : Cursor.Forward fun cursor => cursor.rest <:+ text where
  next stands := (List.suffix_cons _ _).trans stands

/-- What a run does to the heap: for each literal that it closes it adds a record. -/
structure Fills (closes : List Char → Prop) (before after : ReadState)
    (made : List (RecordId × List Char)) : Prop where
  adds : before.heap.Adds after.heap (made.map Prod.fst)
  only : ∀ id, after.heap.HasRecord id → before.heap.HasRecord id ∨ id ∈ made.map Prod.fst
  madeFrom : ∀ entry ∈ made, before.heap.MadeFrom after.heap entry.1 entry.2
  closes_iff : ∀ inside, closes inside ↔ inside ∈ made.map Prod.snd
  once : (made.map Prod.snd).Nodup
  span : ∀ inside ∈ made.map Prod.snd,
    after.cursor.rest.length < inside.length ∧ '[' :: inside <:+ before.cursor.rest
  forward : after.cursor.rest <:+ before.cursor.rest

namespace Fills

variable {closes others : List Char → Prop} {before middle after : ReadState}
  {made more : List (RecordId × List Char)}

/-- A run that adds nothing. -/
theorem none (same : after.heap = before.heap)
    (forward : after.cursor.rest <:+ before.cursor.rest) :
    Fills (fun _ => False) before after [] where
  adds := same ▸ .none before.heap
  only id used := .inl (same ▸ used)
  madeFrom := List.forall_mem_nil _
  closes_iff inside := by simp
  once := List.nodup_nil
  span := List.forall_mem_nil _
  forward := forward

/-- Two runs one after the other. The literals of the second start behind those of the first. -/
theorem append (first : Fills closes before middle made) (second : Fills others middle after more) :
    Fills (fun inside => closes inside ∨ others inside) before after (made ++ more) where
  adds := by
    rw [List.map_append]
    exact first.adds.append second.adds
  only id used := by
    rw [List.map_append, List.mem_append]
    rcases second.only id used with early | late
    · exact (first.only id early).imp_right .inl
    · exact .inr (.inr late)
  madeFrom entry mem := by
    rcases List.mem_append.mp mem with early | late
    · exact (first.madeFrom entry early).mono (.refl _) second.adds.keeps
    · exact (second.madeFrom entry late).mono first.adds.keeps (.refl _)
  closes_iff inside := by
    rw [List.map_append, List.mem_append, first.closes_iff, second.closes_iff]
  once := by
    rw [List.map_append]
    refine List.nodup_append.mpr ⟨first.once, second.once, ?_⟩
    rintro inside early _ late rfl
    exact Nat.lt_asymm (first.span inside early).1 (second.span inside late).2.length_le
  span inside mem := by
    rw [List.map_append] at mem
    rcases List.mem_append.mp mem with early | late
    · exact (first.span inside early).imp_left (Nat.lt_of_le_of_lt second.forward.length_le)
    · exact (second.span inside late).imp_right fun opened => opened.trans first.forward
  forward := second.forward.trans first.forward

/-- A run is the same from an earlier place of the text. -/
theorem moved (fills : Fills closes middle after made) (same : middle.heap = before.heap)
    (forward : middle.cursor.rest <:+ before.cursor.rest) : Fills closes before after made where
  adds := same ▸ fills.adds
  only id used := same ▸ fills.only id used
  madeFrom := same ▸ fills.madeFrom
  closes_iff := fills.closes_iff
  once := fills.once
  span inside mem := (fills.span inside mem).imp_right fun opened => opened.trans forward
  forward := fills.forward.trans forward

theorem congr (fills : Fills closes before after made)
    (same : ∀ inside, others inside ↔ closes inside) : Fills others before after made where
  adds := fills.adds
  only := fills.only
  madeFrom := fills.madeFrom
  closes_iff inside := (same inside).trans (fills.closes_iff inside)
  once := fills.once
  span := fills.span
  forward := fills.forward

/-- A literal whose entries were read becomes one more record. Its entries start in front of those
of the literals inside. -/
theorem literal (fills : Fills closes middle after made)
    (opens : before.cursor.rest = '[' :: middle.cursor.rest) (same : middle.heap = before.heap)
    {trees : List (String × Tree)} {fields : Fields}
    (entries : Grammar.Entries middle.cursor.rest trees after.cursor.rest)
    (built : Tree.buildFields trees middle.heap = (fields, after.heap)) :
    let stored := after.heap.allocRecord (.insertAll .emptyLiteral fields)
    Fills (fun inside => inside = middle.cursor.rest ∨ closes inside) before
      ⟨after.cursor, stored.2⟩ ((stored.1, middle.cursor.rest) :: made) where
  adds := same ▸ fills.adds.allocRecord _
  only id used := by
    rcases Heap.hasRecord_allocRecord_iff.mp used with rfl | before
    · exact .inr List.mem_cons_self
    · exact same ▸ (fills.only id before).imp_right (List.mem_cons_of_mem _)
  madeFrom entry mem := by
    rcases List.mem_cons.mp mem with rfl | inner
    · refine ⟨trees, _, middle.heap, _, entries, same ▸ .refl _, ?_, .refl _⟩
      rw [Tree.build, built]
    · have grows := after.heap.extends_allocRecord (.insertAll .emptyLiteral fields)
      exact same ▸ (fills.madeFrom entry inner).mono (.refl _) grows
  closes_iff inside := by
    rw [List.map_cons, List.mem_cons, fills.closes_iff]
  once := by
    rw [List.map_cons, List.nodup_cons]
    exact ⟨fun mem => Nat.lt_irrefl _ (fills.span _ mem).2.length_le, fills.once⟩
  span inside mem := by
    rw [List.map_cons] at mem
    rw [opens]
    rcases List.mem_cons.mp mem with rfl | inner
    · exact ⟨entries.length_lt, List.suffix_rfl⟩
    · exact (fills.span inside inner).imp_right fun opened => opened.trans (List.suffix_cons _ _)
  forward := by
    rw [opens]
    exact fills.forward.trans (List.suffix_cons _ _)

end Fills

/-- Whether an action adds to the heap one record for each literal that it closes, also when it
fails. -/
def Closes (action : ReadM α) (state : ReadState) (closes : List Char → Prop) : Prop :=
  ∃ made, Fills closes state (outcome action state).2 made

namespace Closes

variable {action : ReadM α} {state : ReadState} {closes first : List Char → Prop}

/-- An action that closes nothing. -/
theorem none (same : (outcome action state).2.heap = state.heap)
    (forward : (outcome action state).2.cursor.rest <:+ state.cursor.rest)
    (nothing : ∀ inside, ¬ closes inside) : Closes action state closes :=
  ⟨[], (Fills.none same forward).congr fun inside => iff_of_false (nothing inside) id⟩

/-- A sequence closes what its first part closes, and what the rest closes where that is reached. -/
theorem bind {next : α → ReadM β} (begins : Closes action state first)
    (stops : (∃ fault after, outcome action state = (.error fault, after)) →
      ∀ inside, closes inside ↔ first inside)
    (goesOn : ∀ value after, Gives action state value after →
      ∃ others, Closes (next value) after others ∧
      ∀ inside, closes inside ↔ first inside ∨ others inside) :
    Closes (action >>= next) state closes := by
  obtain ⟨made, fills⟩ := begins
  unfold Closes
  rw [outcome_bind]
  cases ran : outcome action state with
  | mk result after =>
      rw [ran] at fills
      cases result with
      | error fault => exact ⟨made, fills.congr (stops ⟨fault, after, ran⟩)⟩
      | ok value =>
          obtain ⟨others, ⟨more, later⟩, same⟩ := goesOn value after ran
          exact ⟨made ++ more, (fills.append later).congr same⟩

/-- What follows closes nothing. -/
theorem finish {next : α → ReadM β} (begins : Closes action state closes)
    (ends : ∀ value after, Gives action state value after →
      (outcome (next value) after).2 = after) :
    Closes (action >>= next) state closes := by
  refine begins.bind (fun _ _ => Iff.rfl) fun value after given => ?_
  have nothing : Closes (next value) after fun _ => False := by
    refine ⟨[], ?_⟩
    rw [ends value after given]
    exact .none rfl List.suffix_rfl
  exact ⟨_, nothing, fun _ => (or_false _).symm.to_iff⟩

theorem cursor {next : Cursor → ReadM β} (goesOn : Closes (next state.cursor) state closes) :
    Closes (cursor >>= next) state closes := goesOn

/-- A step that moves the cursor on and adds nothing. -/
theorem moved {next : α → ReadM β} {value : α} {after : ReadState}
    (given : Gives action state value after) (same : after.heap = state.heap)
    (forward : after.cursor.rest <:+ state.cursor.rest)
    (goesOn : Closes (next value) after closes) : Closes (action >>= next) state closes := by
  obtain ⟨made, fills⟩ := goesOn
  unfold Closes
  rw [outcome_bind_of_ok given]
  exact ⟨made, fills.moved same forward⟩

theorem skipTrivia {next : Unit → ReadM β}
    (goesOn : Closes (next ()) { state with cursor := state.cursor.skipTrivia } closes) :
    Closes (skipTrivia >>= next) state closes :=
  .moved rfl rfl ((forward_suffix _).skipTrivia List.suffix_rfl) goesOn

theorem advance {next : Unit → ReadM β}
    (goesOn : Closes (next ()) { state with cursor := state.cursor.advance } closes) :
    Closes (advance >>= next) state closes :=
  .moved rfl rfl ((forward_suffix _).advance List.suffix_rfl) goesOn

end Closes

/-! ## The reader -/

theorem skips_skipTrivia (cursor : Cursor) : Grammar.Skips cursor.rest cursor.skipTrivia.rest :=
  (Grammar.skips_iff cursor.position).mpr rfl

theorem blocked_of_none {cursor : Cursor} (atEnd : cursor.peek? = none) :
    Grammar.Blocked cursor.rest := by
  intro ch next
  cases atEnd.symm.trans next

theorem blocked_of_some {cursor : Cursor} {ch : Char} (next : cursor.peek? = some ch)
    (closing : ch = ')' ∨ ch = ']') : Grammar.Blocked cursor.rest := by
  intro other next'
  cases next.symm.trans next'
  exact closing

/-- Whether what was read is an entry shows in its tree. -/
theorem exists_field_iff (tree : Tree) (heap : Heap) :
    (∃ pair, field (tree.build heap).1 = .ok pair) ↔ tree.IsEntry := by
  constructor
  · rintro ⟨⟨name, value⟩, accepted⟩
    obtain ⟨valueTree, ⟨onEntry, onName, leaf, rfl, spelled⟩, _⟩ :=
      field_build_eq_ok_iff.mp accepted
    exact ⟨onEntry, onName, leaf, name, valueTree, rfl, spelled⟩
  · rintro ⟨onEntry, onName, leaf, name, value, same, spelled⟩
    exact ⟨_, field_build_eq_ok_iff.mpr ⟨value, ⟨onEntry, onName, leaf, same, spelled⟩, rfl⟩⟩

/-- A leaf is no record, whether it is accepted or not. -/
theorem heap_leaf (modifier : Modifier) (state : ReadState) :
    (outcome (leaf modifier) state).2.heap = state.heap := by
  have atCursor : outcome cursor state = (.ok state.cursor, state) := rfl
  have scans : outcome (scan Cursor.scanLeaf) state =
      (state.cursor.scanLeaf.1, { state with cursor := state.cursor.scanLeaf.2 }) := by
    unfold scan
    rw [outcome_bind_of_ok atCursor]
    cases state.cursor.scanLeaf with
    | mk result after => cases result <;> rfl
  unfold leaf
  rw [outcome_bind_of_ok atCursor, outcome_bind, scans]
  cases state.cursor.scanLeaf.1 with
  | error fault => rfl
  | ok value =>
      dsimp only
      split
      · rfl
      · split <;> rfl

/-- No literal is closed where no list and no literal starts. -/
theorem closes_leaf (modifier : Modifier) {state : ReadState}
    (noList : state.cursor.peek? ≠ some '(') (noRecord : state.cursor.peek? ≠ some '[') :
    Closes (leaf modifier) state (Grammar.BodyCloses modifier state.cursor.rest) := by
  have stays := stays_leaf (forward_suffix state.cursor.rest) modifier state List.suffix_rfl
  refine .none (heap_leaf modifier state) stays.1 fun inside closes => ?_
  unfold Cursor.peek? at noList noRecord
  generalize state.cursor.rest = input at closes noList noRecord
  cases closes with
  | items => exact noList rfl
  | entries => exact noRecord rfl
  | whole => exact noRecord rfl

section Parts

/-- A reader of atoms that follows the grammar on texts shorter than a bound, and adds what it
closes. -/
structure Records (read : ReadM Atom) (bound : Nat) : Prop where
  follows : FollowsGrammar read bound
  closes : ∀ state : ReadState, state.cursor.rest.length < bound →
    Closes read state (Grammar.AtomCloses state.cursor.rest)

variable {read : ReadM Atom} {bound : Nat} (records : Records read bound)
include records

/-- Where reading succeeds there is an atom, and its value is built from it. -/
theorem Records.exists_atom {state after : ReadState} {value : Atom}
    (short : state.cursor.rest.length < bound) (given : Gives read state value after) :
    ∃ tree, Grammar.Atom state.cursor.rest tree after.cursor.rest ∧
      tree.build state.heap = (value, after.heap) :=
  (records.follows state.cursor.rest state.cursor.position state.heap after.heap value
    after.cursor.rest short).mp ⟨after.cursor.position, given⟩

/-- Where reading fails there is no atom. -/
theorem Records.not_atom {state : ReadState} (short : state.cursor.rest.length < bound)
    (failed : ∃ fault after, outcome read state = (.error fault, after)) (tree : Tree)
    (rest : List Char) : ¬ Grammar.Atom state.cursor.rest tree rest := by
  intro atom
  obtain ⟨fault, after, failed⟩ := failed
  obtain ⟨position, given⟩ := (records.follows state.cursor.rest state.cursor.position state.heap
    _ _ rest short).mpr ⟨tree, atom, rfl⟩
  cases failed.symm.trans given

theorem Records.items (opened : Position) {rounds : Nat} (le : rounds ≤ bound) {state : ReadState}
    (short : state.cursor.rest.length < rounds) :
    Closes (items read opened rounds) state (Grammar.ItemsClose state.cursor.rest) := by
  induction rounds generalizing state with
  | zero => exact absurd short (Nat.not_lt_zero _)
  | succ rounds ih =>
      have skips := skips_skipTrivia state.cursor
      have few : state.cursor.skipTrivia.rest.length ≤ rounds :=
        Nat.le_trans skips.length_le (Nat.le_of_lt_succ short)
      unfold ReadM.items
      refine .skipTrivia (.cursor ?_)
      split
      · rename_i atEnd
        exact .none rfl List.suffix_rfl fun _ => (blocked_of_none atEnd).not_itemsClose skips
      · rename_i closing
        refine .advance (.none rfl List.suffix_rfl fun _ => ?_)
        exact (blocked_of_some closing (.inl rfl)).not_itemsClose skips
      · have inside := Nat.lt_of_le_of_lt few le
        refine (records.closes _ inside).bind (fun failed literal => ?_) fun item after given => ?_
        · rw [← Grammar.atomCloses_iff_of_skips skips]
          apply Grammar.itemsClose_iff_of_noAtom
          intro tree rest atom
          exact records.not_atom inside failed tree rest ((Grammar.atom_iff_of_skips skips).mp atom)
        · obtain ⟨tree, atom, _⟩ := records.exists_atom inside given
          have fewer : after.cursor.rest.length < rounds := Nat.lt_of_lt_of_le atom.length_lt few
          refine ⟨_, (ih (Nat.le_of_succ_le le) fewer).finish fun _ _ _ => rfl, fun literal => ?_⟩
          rw [← Grammar.atomCloses_iff_of_skips skips]
          exact Grammar.itemsClose_iff_of_atom ((Grammar.atom_iff_of_skips skips).mpr atom)

theorem Records.entries (opened : Position) {rounds : Nat} (le : rounds ≤ bound) {state : ReadState}
    (short : state.cursor.rest.length < rounds) (record : Record) :
    Closes (entries read opened rounds record) state (Grammar.EntriesClose state.cursor.rest) := by
  induction rounds generalizing state record with
  | zero => exact absurd short (Nat.not_lt_zero _)
  | succ rounds ih =>
      have skips := skips_skipTrivia state.cursor
      have few : state.cursor.skipTrivia.rest.length ≤ rounds :=
        Nat.le_trans skips.length_le (Nat.le_of_lt_succ short)
      unfold ReadM.entries
      refine .skipTrivia (.cursor ?_)
      split
      · rename_i atEnd
        exact .none rfl List.suffix_rfl fun _ => (blocked_of_none atEnd).not_entriesClose skips
      · rename_i closing
        refine .advance (.none rfl List.suffix_rfl fun _ => ?_)
        exact (blocked_of_some closing (.inr rfl)).not_entriesClose skips
      · have inside := Nat.lt_of_le_of_lt few le
        refine (records.closes _ inside).bind (fun failed literal => ?_) fun entry after given => ?_
        · rw [← Grammar.atomCloses_iff_of_skips skips]
          apply Grammar.entriesClose_iff_of_noEntry
          intro tree rest atom
          have here := (Grammar.atom_iff_of_skips skips).mp atom
          exact absurd here (records.not_atom inside failed tree rest)
        · obtain ⟨tree, atom, built⟩ := records.exists_atom inside given
          have fewer : after.cursor.rest.length < rounds := Nat.lt_of_lt_of_le atom.length_lt few
          have whole := (Grammar.atom_iff_of_skips skips).mpr atom
          have accepts := exists_field_iff tree state.heap
          rw [built] at accepts
          simp only [← Grammar.atomCloses_iff_of_skips skips]
          split
          · rename_i cause rejected
            refine ⟨fun _ => False, .none rfl List.suffix_rfl fun _ => id, fun literal => ?_⟩
            rw [or_false]
            apply Grammar.entriesClose_iff_of_noEntry
            intro entry rest atom isEntry
            obtain ⟨rfl, _⟩ := whole.unique atom
            obtain ⟨pair, accepted⟩ := accepts.mpr isEntry
            cases rejected.symm.trans accepted
          · rename_i name value accepted
            have isEntry := accepts.mp ⟨_, accepted⟩
            exact ⟨_, ih (Nat.le_of_succ_le le) fewer _, fun literal =>
              Grammar.entriesClose_iff_of_entry whole isEntry⟩

/-- Where the entries of a literal are read to their end, they are its fields. -/
theorem Records.exists_entries {rounds : Nat} {opened : Position} {state after : ReadState}
    {record : Record}
    (given : Gives (ReadM.entries read opened rounds .emptyLiteral) state record after)
    (short : state.cursor.rest.length < bound) (enough : state.cursor.rest.length < rounds) :
    ∃ trees fields, Grammar.Entries state.cursor.rest trees after.cursor.rest ∧
      Tree.buildFields trees state.heap = (fields, after.heap) ∧
      record = Record.emptyLiteral.insertAll fields :=
  (entries_iff records.follows opened rounds state.cursor.position state.heap .emptyLiteral record
    short enough).mp ⟨after.cursor.position, given⟩

theorem Records.literal (opened : Position) {more : List Char} {position : Position} {heap : Heap}
    (short : more.length < bound) :
    Closes (advance >>= fun _ => ReadM.entries read opened bound .emptyLiteral >>= fun record =>
        alloc record >>= fun id => pure (Atom.record id)) ⟨⟨'[' :: more, position⟩, heap⟩
      (Grammar.BodyCloses .plain ('[' :: more)) := by
  let state : ReadState := ⟨⟨'[' :: more, position⟩, heap⟩
  let inner : ReadState := ⟨⟨more, position.next '['⟩, heap⟩
  have closes : Closes (ReadM.entries read opened bound .emptyLiteral) inner
      (Grammar.EntriesClose more) := records.entries opened (Nat.le_refl bound) short .emptyLiteral
  obtain ⟨made, fills⟩ := closes
  change ∃ made,
    Fills _ state (outcome (ReadM.entries read opened bound .emptyLiteral >>= _) inner).2 made
  rw [outcome_bind]
  cases ran : outcome (ReadM.entries read opened bound .emptyLiteral) inner with
  | mk result after =>
      rw [ran] at fills
      cases result with
      | error fault =>
          have moved : Fills (Grammar.EntriesClose more) state after made :=
            fills.moved rfl (List.suffix_cons _ _)
          refine ⟨made, moved.congr fun inside => ⟨fun closes => ?_, .entries⟩⟩
          cases closes with
          | entries closes => exact closes
          | whole entries =>
              obtain ⟨_, given⟩ :=
                (entries_iff records.follows opened bound inner.cursor.position heap
                .emptyLiteral _ short short).mpr ⟨_, _, entries, rfl, rfl⟩
              cases ran.symm.trans given
      | ok record =>
          obtain ⟨trees, fields, entries, built, rfl⟩ := records.exists_entries ran short short
          have opens : state.cursor.rest = '[' :: inner.cursor.rest := rfl
          refine ⟨_, (fills.literal opens rfl entries built).congr fun inside => ?_⟩
          constructor
          · intro closes
            cases closes with
            | entries closes => exact .inr closes
            | whole => exact .inl rfl
          · rintro (rfl | closes)
            · exact .whole entries
            · exact .entries closes

theorem Records.body (modifier : Modifier) {state : ReadState}
    (short : state.cursor.rest.length ≤ bound) :
    Closes (ReadM.body read bound modifier) state
      (Grammar.BodyCloses modifier state.cursor.rest) := by
  unfold ReadM.body
  refine .cursor ?_
  obtain ⟨⟨input, position⟩, heap⟩ := state
  split
  · rename_i atEnd
    exact .none rfl List.suffix_rfl fun _ => (blocked_of_none atEnd).not_bodyCloses
  · rename_i opening
    obtain ⟨more, rfl⟩ : ∃ more, input = '(' :: more := List.head?_eq_some_iff.mp opening
    refine .advance (.finish ?_ fun _ _ _ => rfl)
    have closes : Closes (ReadM.items read position bound) ⟨⟨more, position.next '('⟩, heap⟩
      (Grammar.ItemsClose more) := records.items position (Nat.le_refl bound) short
    obtain ⟨made, fills⟩ := closes
    refine ⟨made, fills.congr fun inside => ⟨fun closes => ?_, .items⟩⟩
    cases closes with
    | items closes => exact closes
  · rename_i opening
    obtain ⟨more, rfl⟩ : ∃ more, input = '[' :: more := List.head?_eq_some_iff.mp opening
    split
    · rename_i marked
      refine .none rfl List.suffix_rfl fun inside closes => ?_
      cases closes with
      | entries | whole => exact marked rfl
    · rename_i unmarked
      cases not_not.mp unmarked
      exact records.literal position short
  · rename_i closing
    exact .none rfl List.suffix_rfl fun _ => (blocked_of_some closing (.inl rfl)).not_bodyCloses
  · rename_i closing
    exact .none rfl List.suffix_rfl fun _ => (blocked_of_some closing (.inr rfl)).not_bodyCloses
  · rename_i ch noList noRecord _ _ starts
    refine closes_leaf modifier ?_ ?_
    · rw [starts]
      exact fun same => noList (Option.some.inj same)
    · rw [starts]
      exact fun same => noRecord (Option.some.inj same)

theorem Records.access (target : Atom) {state : ReadState}
    (short : state.cursor.rest.length ≤ bound) :
    Closes (ReadM.access read target) state (Grammar.AccessCloses state.cursor.rest) := by
  have skips := skips_skipTrivia state.cursor
  have few := Nat.le_trans skips.length_le short
  unfold ReadM.access
  refine .skipTrivia (.cursor ?_)
  generalize state.cursor.skipTrivia = skipped at skips few ⊢
  obtain ⟨seen, position⟩ := skipped
  split
  · rename_i point
    obtain ⟨inner, rfl⟩ : ∃ inner, seen = '.' :: inner := List.head?_eq_some_iff.mp point
    refine .advance (.cursor (.finish ?_ fun field after _ => ?_))
    · have closes : Closes read ⟨⟨inner, position.next '.'⟩, state.heap⟩
        (Grammar.AtomCloses inner) := records.closes _ few
      obtain ⟨made, fills⟩ := closes
      refine ⟨made, fills.congr fun inside => ⟨?_, fun closes => ⟨inner, skips, closes⟩⟩⟩
      rintro ⟨other, skips', closes⟩
      cases skips.unique skips'
      exact closes
    · split <;> rfl
  · rename_i noPoint
    refine .none rfl List.suffix_rfl fun inside closes => ?_
    obtain ⟨inner, skips', _⟩ := closes
    cases skips.unique skips'
    exact noPoint rfl

theorem Records.step {state : ReadState} (short : state.cursor.rest.length ≤ bound) :
    Closes (ReadM.step read bound) state (Grammar.AtomCloses state.cursor.rest) := by
  have skips := skips_skipTrivia state.cursor
  let skipped : ReadState := { state with cursor := state.cursor.skipTrivia }
  obtain ⟨mark, marked, given, sameHeap, marks⟩ := exists_gives_modifier skipped
  have inside : marked.cursor.rest.length ≤ bound :=
    Nat.le_trans marks.isSuffix.length_le (Nat.le_trans skips.length_le short)
  unfold ReadM.step
  refine .skipTrivia (.moved given sameHeap marks.isSuffix ?_)
  refine (records.body mark inside).bind (fun failed literal => ?_) fun target after given => ?_
  · rw [Grammar.atomCloses_iff skips marks]
    refine ⟨fun closes => closes.resolve_right ?_, .inl⟩
    rintro ⟨first, middle, body, _⟩
    obtain ⟨fault, after, failed⟩ := failed
    obtain ⟨position, given⟩ := (body_iff records.follows mark bound marked.cursor.position
      marked.heap _ inside inside).mpr ⟨first, body, rfl⟩
    cases failed.symm.trans given
  · obtain ⟨first, body, _⟩ := (body_iff records.follows mark bound marked.cursor.position
      marked.heap target inside inside).mp ⟨after.cursor.position, given⟩
    have behind := Nat.le_trans (Nat.le_of_lt body.length_lt) inside
    refine ⟨_, (records.access target behind).finish fun _ _ _ => rfl, fun literal => ?_⟩
    rw [Grammar.atomCloses_iff skips marks]
    refine or_congr_right ⟨?_, fun closes => ⟨first, _, body, closes⟩⟩
    rintro ⟨other, middle, body', closes⟩
    obtain ⟨_, rfl⟩ := body.unique body'
    exact closes

end Parts

/-- The reader of atoms adds a record for each literal that it closes. -/
theorem records_atom (fuel : Nat) : Records (atom fuel) fuel := by
  induction fuel with
  | zero => exact ⟨followsGrammar_atom 0, fun _ short => absurd short (Nat.not_lt_zero _)⟩
  | succ fuel ih =>
      exact ⟨followsGrammar_atom (fuel + 1), fun _ short => ih.step (Nat.le_of_lt_succ short)⟩

theorem closes_program {fuel : Nat} {state : ReadState} (short : state.cursor.rest.length < fuel) :
    Closes (program fuel) state (Grammar.AtomCloses state.cursor.rest) := by
  have skips := skips_skipTrivia state.cursor
  have few := Nat.lt_of_le_of_lt skips.length_le short
  unfold program
  refine .skipTrivia (.cursor ?_)
  split
  · rename_i atEnd
    refine .none rfl List.suffix_rfl fun _ => Grammar.Blocked.not_atomCloses ?_ skips
    rw [List.isEmpty_iff.mp atEnd]
    exact fun ch next => absurd next (Option.not_mem_none ch)
  · refine ((records_atom fuel).closes _ few).bind (fun _ _ => ?_) fun value after given => ?_
    · exact Grammar.atomCloses_iff_of_skips skips
    · refine ⟨fun _ => False, .skipTrivia (.cursor ?_), fun _ => ?_⟩
      · split <;> exact .none rfl List.suffix_rfl fun _ => id
      · rw [or_false]
        exact Grammar.atomCloses_iff_of_skips skips

end ReadM

/-- Reading a text adds a record for each literal that is closed in it. -/
theorem Source.exists_fills (source : Source) (heap : Heap) :
    ∃ last made, ReadM.Fills (Grammar.AtomCloses source.content.toList)
      ⟨.ofText source.content, heap⟩ ⟨last, (source.read heap).2⟩ made := by
  have closes : ReadM.Closes (ReadM.program (source.content.toList.length + 1))
      ⟨.ofText source.content, heap⟩ (Grammar.AtomCloses source.content.toList) :=
    ReadM.closes_program (Nat.lt_succ_self _)
  obtain ⟨made, fills⟩ := closes
  exact ⟨_, made, fills⟩

end RecordLisp
