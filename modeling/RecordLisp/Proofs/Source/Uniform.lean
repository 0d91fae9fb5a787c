import RecordLisp.Proofs.Simulation
import RecordLisp.Source.Reader

/-!
# Reading does not depend on the heap

The reader looks at the text alone and only ever adds records to the heap. From the same text and
matching heaps it stops at the same fault or gives matching atoms, and the records of literals are
new pairs.
-/

namespace RecordLisp

open Effect

variable {pairing : Pairing}

/-! ## Member chains -/

namespace Atom

theorem Match.attach : ∀ {rhs rhs' : Atom}, rhs.Match pairing rhs' → ∀ {lhs lhs' : Atom},
    lhs.Match pairing lhs' → ∀ inherited,
      (lhs.attach inherited rhs).Match pairing (lhs'.attach inherited rhs')
  | .leaf _ _, _, .leaf values, _, _, left, _ => .member left (.leaf values)
  | .list _ _, _, .list items, _, _, left, _ => .member left (.list items)
  | .member _ _ _, _, .member targets fields, _, _, left, _ =>
      Match.attach fields (Match.attach targets left _) _

theorem Match.join {lhs lhs' rhs rhs' : Atom} (left : lhs.Match pairing lhs')
    (right : rhs.Match pairing rhs') : (lhs.join rhs).Match pairing (lhs'.join rhs') :=
  right.attach left .plain

end Atom

/-! ## Leaves -/

/-- The same leaf, without a handle. -/
def Correspondence.plainLeaf : Correspondence Leaf where
  relates _ value other := value = other ∧ value.handle? = none
  mono _ same := same

namespace Cursor

theorem result_of_finish {result : Except Fault Leaf} {cursor after : Cursor} {value : Leaf}
    (finished : finish result cursor = (.ok value, after)) : result = .ok value := by
  unfold finish at finished
  split at finished
  · exact congrArg Prod.fst finished
  · cases finished

theorem handle?_scanToken (cursor : Cursor) : cursor.scanToken.1.handle? = none := by
  unfold scanToken
  dsimp only
  split <;> rfl

theorem handle?_integerLiteral {start after : Cursor} {negative : Bool} {digits : List Char}
    {value : Leaf} (accepted : integerLiteral start after negative digits = .ok value) :
    value.handle? = none := by
  unfold integerLiteral at accepted
  dsimp only at accepted
  split at accepted
  · cases accepted
    rfl
  · cases accepted

theorem handle?_scanUnsigned {start digits after : Cursor} {negative : Bool} {value : Leaf}
    (scanned : scanUnsigned start digits negative = (.ok value, after)) : value.handle? = none := by
  unfold scanUnsigned at scanned
  dsimp only at scanned
  split at scanned
  · cases result_of_finish scanned
    rfl
  · exact handle?_integerLiteral (result_of_finish scanned)

theorem handle?_scanNumber {cursor after : Cursor} {value : Leaf}
    (scanned : cursor.scanNumber = (.ok value, after)) : value.handle? = none := by
  unfold scanNumber at scanned
  split at scanned
  · split at scanned
    · exact handle?_scanUnsigned scanned
    · cases scanned
      exact handle?_scanToken cursor
  · exact handle?_scanUnsigned scanned

theorem handle?_scanString {cursor after : Cursor} {value : Leaf}
    (scanned : cursor.scanString = (.ok value, after)) : value.handle? = none := by
  unfold scanString at scanned
  dsimp only at scanned
  split at scanned
  · cases scanned
  · cases result_of_finish scanned
    rfl

/-- A leaf that source text spells out is no object of the heap. -/
theorem handle?_scanLeaf {cursor after : Cursor} {value : Leaf}
    (scanned : cursor.scanLeaf = (.ok value, after)) : value.handle? = none := by
  unfold scanLeaf at scanned
  split at scanned
  · exact handle?_scanString scanned
  · split at scanned
    · exact handle?_scanNumber scanned
    · cases scanned
      exact handle?_scanToken cursor

end Cursor

/-! ## Steps of reading -/

/-- The same place in the text, and matching heaps. -/
structure ReadState.Match (pairing : Pairing) (state other : ReadState) : Prop where
  cursor : state.cursor = other.cursor
  heap : state.heap.Match pairing other.heap

namespace ReadM

/-- Whether two readers do the same up to handles. -/
abbrev Simulates {α : Type} (values : Correspondence α) (pairing : Pairing)
    (action other : ReadM α) : Prop :=
  Effect.Simulates ReadState.Match values pairing action other

variable {α β : Type} {values : Correspondence α} {results : Correspondence β}

/-- After a look at the place in the text, which is the same on both sides. -/
theorem simulates_cursor {next next' : Cursor → ReadM β}
    (goesOn : ∀ cursor, Simulates results pairing (next cursor) (next' cursor)) :
    Simulates results pairing (cursor >>= next) (cursor >>= next') := by
  have reads : Reads cursor ReadState.cursor := fun _ => rfl
  refine Simulates.read reads fun later within state state' matched => ?_
  rw [matched.cursor]
  exact Simulates.mono within (goesOn state'.cursor)

theorem simulates_fail (cause : SyntaxFault) :
    Simulates values pairing (fail cause) (fail cause) :=
  simulates_cursor fun _ => simulates_throw _

theorem simulates_moveTo (cursor : Cursor) :
    Simulates (.same Unit) pairing (moveTo cursor) (moveTo cursor) :=
  simulates_modify fun _ _ _ _ matched => ⟨rfl, matched.heap⟩

theorem simulates_advance : Simulates (.same Unit) pairing advance advance :=
  simulates_modify fun _ _ _ _ matched => ⟨congrArg Cursor.advance matched.cursor, matched.heap⟩

theorem simulates_skipTrivia : Simulates (.same Unit) pairing skipTrivia skipTrivia :=
  simulates_modify fun _ _ _ _ matched => ⟨congrArg Cursor.skipTrivia matched.cursor, matched.heap⟩

theorem simulates_scanLeaf :
    Simulates .plainLeaf pairing (scan Cursor.scanLeaf) (scan Cursor.scanLeaf) := by
  refine simulates_cursor fun cursor => ?_
  cases scanned : cursor.scanLeaf with
  | mk result after =>
      refine (simulates_moveTo after).bind fun _ _ _ _ _ => ?_
      cases result with
      | ok value => exact simulates_pure ⟨rfl, Cursor.handle?_scanLeaf scanned⟩
      | error fault => exact simulates_throw _

theorem simulates_alloc {record record' : Record} (same : record.Match pairing record') :
    Simulates .record pairing (alloc record) (alloc record') := by
  intro later within state state' matched
  obtain ⟨last, grows, paired, heaps⟩ := matched.heap.allocRecord (same.mono within)
  exact ⟨last, grows, ⟨matched.cursor, heaps⟩, .ok paired⟩

theorem simulates_modifier : Simulates (.same Modifier) pairing modifier modifier := by
  refine simulates_cursor fun cursor => ?_
  split
  · exact simulates_advance.map fun _ _ _ _ _ => rfl
  · exact simulates_pure rfl

/-! ## Atoms -/

/-- Whether a reader of atoms gives matching atoms. -/
def Uniform (read : ReadM Atom) : Prop := ∀ {pairing : Pairing}, Simulates .atom pairing read read

theorem Uniform.items {read : ReadM Atom} (uniform : Uniform read) (opened : Position)
    (rounds : Nat) :
    Simulates (.list .atom) pairing (items read opened rounds) (items read opened rounds) := by
  induction rounds generalizing pairing with
  | zero => exact simulates_throw _
  | succ rounds ih =>
      refine simulates_skipTrivia.bind fun _ _ _ _ _ => simulates_cursor fun cursor => ?_
      split
      · exact simulates_throw _
      · exact simulates_advance.map fun _ _ _ _ _ => .nil
      · refine uniform.bind fun later within item item' same => ih.map fun last grows _ _ rest => ?_
        exact .cons (Correspondence.atom.mono grows same) rest

/-- The field of an entry. -/
theorem match_field {entry other : Atom} (same : entry.Match pairing other) :
    ResultRel ((Correspondence.prod (.same String) .atom).relates pairing) (field entry)
      (field other) := by
  unfold field
  have items := same.list?
  generalize entry.list? = found, other.list? = found' at items
  cases items with
  | none => exact .error _
  | some items =>
      cases items with
      | nil => exact .error _
      | cons name rest =>
          cases rest with
          | nil => exact .error _
          | cons value rest =>
              cases rest with
              | cons => exact .error _
              | nil =>
                  dsimp only
                  rw [name.name?_eq]
                  split
                  · exact .ok ⟨rfl, value⟩
                  · exact .error _

theorem Uniform.entries {read : ReadM Atom} (uniform : Uniform read) (opened : Position)
    (rounds : Nat) {record record' : Record} (same : record.Match pairing record') :
    Simulates ⟨Record.Match, Record.Match.mono⟩ pairing (entries read opened rounds record)
      (entries read opened rounds record') := by
  induction rounds generalizing pairing record record' with
  | zero => exact simulates_throw _
  | succ rounds ih =>
      refine simulates_skipTrivia.bind fun later within _ _ _ => simulates_cursor fun start => ?_
      split
      · exact simulates_throw _
      · exact simulates_advance.map fun last grows _ _ _ => same.mono (within.trans grows)
      · refine uniform.bind fun last grows entry entry' matched => ?_
        have fields := match_field matched
        generalize field entry = found, field entry' = found' at fields
        cases fields with
        | error cause => exact simulates_throw _
        | @ok found found' fields =>
            obtain ⟨name, value⟩ := found
            obtain ⟨name', value'⟩ := found'
            obtain ⟨sameName, values⟩ := fields
            cases sameName
            exact ih ((same.mono (within.trans grows)).insert name values)

theorem simulates_leaf (modifier : Modifier) :
    Simulates .atom pairing (leaf modifier) (leaf modifier) := by
  refine simulates_cursor fun start => simulates_scanLeaf.bind fun _ _ value _ same => ?_
  obtain ⟨rfl, noHandle⟩ := same
  split
  · exact simulates_throw _
  · split
    · exact simulates_throw _
    · exact simulates_pure (.leaf (.same noHandle))

theorem Uniform.body {read : ReadM Atom} (uniform : Uniform read) (rounds : Nat)
    (modifier : Modifier) :
    Simulates .atom pairing (body read rounds modifier) (body read rounds modifier) := by
  refine simulates_cursor fun start => ?_
  split
  · exact simulates_fail _
  · refine simulates_advance.bind fun _ _ _ _ _ => ?_
    exact (uniform.items start.position rounds).map fun _ _ _ _ items => .list items
  · split
    · exact simulates_fail _
    · refine simulates_advance.bind fun _ _ _ _ _ => ?_
      refine (uniform.entries start.position rounds Record.match_emptyLiteral).bind
        fun _ _ _ _ same => ?_
      exact (simulates_alloc same).map fun _ _ _ _ paired => .leaf (.record paired)
  · exact simulates_fail _
  · exact simulates_fail _
  · exact simulates_leaf modifier

theorem Uniform.access {read : ReadM Atom} (uniform : Uniform read) {target target' : Atom}
    (same : target.Match pairing target') :
    Simulates .atom pairing (access read target) (access read target') := by
  refine simulates_skipTrivia.bind fun later within _ _ _ => simulates_cursor fun cursor => ?_
  split
  · refine simulates_advance.bind fun last grows _ _ _ => simulates_cursor fun start => ?_
    refine uniform.bind fun final growsOn field field' fields => ?_
    rw [Atom.Match.modifier_eq fields]
    split
    · exact simulates_throw _
    · exact simulates_pure ((same.mono (within.trans (grows.trans growsOn))).join fields)
  · exact simulates_pure (same.mono within)

theorem Uniform.step {read : ReadM Atom} (uniform : Uniform read) (rounds : Nat) :
    Uniform (step read rounds) := by
  refine simulates_skipTrivia.bind fun _ _ _ _ _ => ?_
  refine simulates_modifier.bind fun _ _ modifier _ same => ?_
  cases same
  refine (uniform.body rounds modifier).bind fun _ _ target target' targets => ?_
  exact (uniform.access targets).map fun _ _ _ _ atoms => Atom.Match.withModifier atoms modifier

theorem uniform_atom (fuel : Nat) : Uniform (atom fuel) := by
  induction fuel with
  | zero => exact simulates_fail _
  | succ fuel ih => exact Uniform.step ih fuel

theorem uniform_program (fuel : Nat) : Uniform (program fuel) := by
  refine simulates_skipTrivia.bind fun _ _ _ _ _ => simulates_cursor fun cursor => ?_
  split
  · exact simulates_fail _
  · refine (uniform_atom fuel).bind fun _ _ _ _ same => ?_
    refine simulates_skipTrivia.bind fun _ grows _ _ _ => simulates_cursor fun cursor => ?_
    split
    · exact simulates_pure (Correspondence.atom.mono grows same)
    · exact simulates_fail _

end ReadM

/-- Reading into matching heaps. -/
theorem Heap.Match.read {heap other : Heap} (matched : heap.Match pairing other) (source : Source) :
    ∃ later, pairing.Within later ∧ (source.read heap).2.Match later (source.read other).2 ∧
      ResultRel (Atom.Match later) (source.read heap).1 (source.read other).1 := by
  let cursor := Cursor.ofText source.content
  obtain ⟨later, within, after, related⟩ := ReadM.uniform_program (cursor.rest.length + 1) pairing
    (.refl pairing) ⟨cursor, heap⟩ ⟨cursor, other⟩ ⟨rfl, matched⟩
  refine ⟨later, within, after.heap, ?_⟩
  have unfolded (heap : Heap) : (source.read heap).1 =
      (outcome (ReadM.program (cursor.rest.length + 1)) ⟨cursor, heap⟩).1.mapError
        (·.toError source) := rfl
  rw [unfolded, unfolded]
  generalize (outcome (ReadM.program _) ⟨cursor, heap⟩).1 = result,
    (outcome (ReadM.program _) ⟨cursor, other⟩).1 = result' at related
  cases related with
  | error fault => exact .error _
  | ok same => exact .ok same

end RecordLisp
