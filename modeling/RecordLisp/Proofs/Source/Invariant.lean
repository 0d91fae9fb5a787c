import RecordLisp.Proofs.Heap.Contents
import RecordLisp.Proofs.Invariant
import RecordLisp.Proofs.Source.Reading
import RecordLisp.Proofs.Source.Uniform

/-!
# Invariants of reading

The reader puts literal records into the heap and makes atoms of leaves without handles, of lists,
of joined chains and of these records. Where an invariant allows all of that, reading keeps it, and
so it does when it stops at a fault.
-/

namespace RecordLisp

open Effect

theorem Atom.modifier_attach (rhs lhs : Atom) (inherited : Modifier) :
    (lhs.attach inherited rhs).modifier = .plain := by
  match rhs with
  | .leaf _ _ | .list _ _ => rfl
  | .member _ _ field => exact modifier_attach field _ _

/-- What is joined to a chain comes behind its first segment. -/
theorem Atom.leftmost_attach (rhs lhs : Atom) (inherited : Modifier) :
    (lhs.attach inherited rhs).leftmost = lhs.leftmost := by
  match rhs with
  | .leaf _ _ | .list _ _ => rfl
  | .member _ target field => exact (leftmost_attach field _ _).trans (leftmost_attach target _ _)

/-- Atoms of source text, as an invariant allows them. -/
structure Invariant.Text (inv : Invariant) where
  kind : inv.Kind Atom
  atom : ∀ {base atom}, kind.holds base atom → inv.atom base atom
  leaf : ∀ {base value}, value.handle? = none → kind.holds base (.leaf .plain value)
  list : ∀ {base items}, (∀ item ∈ items, kind.holds base item) → kind.holds base (.ofList items)
  item : ∀ {base modifier items}, kind.holds base (.list modifier items) →
    ∀ item ∈ items, kind.holds base item
  join : ∀ {base target field}, kind.holds base target → target.modifier = .plain →
    kind.holds base field → field.modifier ≠ .expand → kind.holds base (target.join field)
  mark : ∀ {base atom} (modifier : Modifier), kind.holds base atom → atom.modifier = .plain →
    modifier = .plain ∨ atom.leftmost.takesModifier = true →
    kind.holds base (atom.withModifier modifier)
  record : ∀ {base record}, inv.heap base → (∀ value ∈ record.values, kind.holds base value) →
    record.parent = none → record.literal = true →
      kind.holds (base.allocRecord record).2 (.record (base.allocRecord record).1)

namespace ReadM

variable {inv : Invariant} {α β : Type} {values : inv.Kind α} {results : inv.Kind β} {base : Heap}

/-- Whether reading keeps an invariant and gives values of a kind. -/
abbrev Maintains (values : inv.Kind α) (base : Heap) (action : ReadM α) : Prop :=
  Effect.Maintains ReadState.heap (fun state => inv.heap state.heap) values base action

/-! ## Steps of reading -/

theorem maintains_cursor {next : Cursor → ReadM β}
    (goesOn : ∀ cursor, Maintains results base (next cursor)) :
    Maintains results base (cursor >>= next) := by
  intro state later kept
  have reads : outcome cursor state = (.ok state.cursor, state) := rfl
  rw [outcome_bind_of_ok reads]
  exact goesOn state.cursor state later kept

theorem maintains_fail (cause : SyntaxFault) : Maintains values base (fail cause) :=
  maintains_cursor fun _ => maintains_throw _

theorem maintains_move (move : Cursor → Cursor) : Maintains (.any inv PUnit) base
    (modify fun state : ReadState => { state with cursor := move state.cursor } : ReadM PUnit) :=
  fun state _ kept => ⟨inv.refl state.heap, kept, fun _ _ => trivial⟩

theorem maintains_advance : Maintains (.any inv PUnit) base advance := maintains_move Cursor.advance

theorem maintains_skipTrivia : Maintains (.any inv PUnit) base skipTrivia :=
  maintains_move Cursor.skipTrivia

/-- Leaves without a handle. -/
def plainLeaf (inv : Invariant) : inv.Kind Leaf :=
  ⟨fun _ value => value.handle? = none, fun _ same => same⟩

theorem maintains_scanLeaf : Maintains (plainLeaf inv) base (scan Cursor.scanLeaf) := by
  refine maintains_cursor fun cursor => ?_
  cases scanned : cursor.scanLeaf with
  | mk result after =>
      have moves : Maintains (.any inv PUnit) base (moveTo after) := maintains_move fun _ => after
      refine moves.bind fun _ _ _ _ => ?_
      cases result with
      | ok value => exact maintains_pure (Cursor.handle?_scanLeaf scanned)
      | error fault => exact maintains_throw _

theorem maintains_modifier : Maintains (.any inv Modifier) base modifier := by
  refine maintains_cursor fun cursor => ?_
  split
  · exact maintains_advance.map fun _ _ _ _ => trivial
  · exact maintains_pure trivial

/-! ## Atoms -/

variable (text : inv.Text)

/-- The records that are made of entries. -/
def literal : inv.Kind Record where
  holds base record :=
    (∀ value ∈ record.values, text.kind.holds base value) ∧ record.parent = none ∧
    record.literal = true
  mono later known := known.imp_left fun values value mem => text.kind.mono later (values value mem)

/-- Atoms that can have a modifier put in front of them. -/
def unmarked (modifier : Modifier) : inv.Kind Atom where
  holds base atom := text.kind.holds base atom ∧ atom.modifier = .plain ∧
    (modifier = .plain ∨ atom.leftmost.takesModifier = true)
  mono later known := known.imp_left (text.kind.mono later)

theorem maintains_alloc {record : Record} (known : (literal text).holds base record) :
    Maintains ((unmarked text .plain).view Atom.record) base (alloc record) := by
  obtain ⟨values, noParent, isLiteral⟩ := known
  intro state later kept
  have values value mem := text.kind.mono later (values value mem)
  obtain ⟨heap, grows, _, _⟩ := inv.allocRecord kept (fun value mem => text.atom (values value mem))
    (by simp [noParent])
  refine ⟨grows, heap, fun id same => ?_⟩
  cases same
  exact ⟨text.record kept values noParent isLiteral, rfl, .inl rfl⟩

theorem maintains_leaf (modifier : Modifier) :
    Maintains (unmarked text modifier) base (leaf modifier) := by
  refine maintains_cursor fun start => maintains_scanLeaf.bind fun _ _ value noHandle => ?_
  split
  · exact maintains_throw _
  · rename_i allowed
    split
    · exact maintains_throw _
    · refine maintains_pure ⟨text.leaf noHandle, rfl, ?_⟩
      by_cases plain : modifier = .plain
      · exact .inl plain
      · refine .inr ?_
        have noHandle : value.handle? = none := noHandle
        cases value with
        | nil | token => rfl
        | integer | decimal | string => exact absurd ⟨plain, rfl⟩ allowed
        | record | function => cases noHandle

/-- Whether a reader of atoms gives atoms of source text. -/
def Reader (read : ReadM Atom) : Prop := ∀ base, Maintains text.kind base read

section Parts

variable {text} {read : ReadM Atom} (reader : Reader text read)
include reader

theorem Reader.items (opened : Position) (rounds : Nat) :
    Maintains text.kind.list base (items read opened rounds) := by
  induction rounds generalizing base with
  | zero => exact maintains_throw _
  | succ rounds ih =>
      refine maintains_skipTrivia.bind fun after _ _ _ => maintains_cursor fun cursor => ?_
      split
      · exact maintains_throw _
      · exact maintains_advance.map fun _ _ _ _ => List.forall_mem_nil _
      · refine (reader after).bind fun after _ item known => ih.map fun last grows rest others => ?_
        exact List.forall_mem_cons.mpr ⟨text.kind.mono grows known, others⟩

theorem Reader.entries (opened : Position) (rounds : Nat) {record : Record}
    (known : (literal text).holds base record) :
    Maintains (literal text) base (entries read opened rounds record) := by
  induction rounds generalizing base record with
  | zero => exact maintains_throw _
  | succ rounds ih =>
      refine maintains_skipTrivia.bind fun after later _ _ => maintains_cursor fun start => ?_
      split
      · exact maintains_throw _
      · exact maintains_advance.map fun last grows _ _ => (literal text).mono
          (inv.trans later grows) known
      · refine (reader after).bind fun last grows entry entryKnown => ?_
        have known := (literal text).mono (inv.trans later grows) known
        cases found : ReadM.field entry with
        | error cause => exact maintains_throw _
        | ok pair =>
            obtain ⟨name, value⟩ := pair
            obtain ⟨modifier, key, rfl, _⟩ := field_eq_ok_iff.mp found
            refine ih ⟨fun held mem => ?_, known.2⟩
            rcases Record.mem_values_insert mem with rfl | before
            · exact text.item entryKnown _ (by simp)
            · exact known.1 held before

theorem Reader.body (rounds : Nat) (modifier : Modifier) :
    Maintains (unmarked text modifier) base (body read rounds modifier) := by
  refine maintains_cursor fun start => ?_
  split
  · exact maintains_fail _
  · refine maintains_advance.bind fun after _ _ _ => ?_
    exact (reader.items start.position rounds).map fun _ _ _ known =>
      ⟨text.list known, rfl, .inr rfl⟩
  · split
    · exact maintains_fail _
    · rename_i unmarked
      refine maintains_advance.bind fun after _ _ _ => ?_
      have start' : (literal text).holds after .emptyLiteral := ⟨List.forall_mem_nil _, rfl, rfl⟩
      refine (reader.entries start.position rounds start').bind fun _ _ _ known => ?_
      refine (maintains_alloc text known).map fun _ _ _ known => ⟨known.1, rfl, .inl ?_⟩
      exact not_not.mp unmarked
  · exact maintains_fail _
  · exact maintains_fail _
  · exact maintains_leaf text modifier

theorem Reader.access {modifier : Modifier} {target : Atom}
    (known : (unmarked text modifier).holds base target) :
    Maintains (unmarked text modifier) base (access read target) := by
  refine maintains_skipTrivia.bind fun after later _ _ => maintains_cursor fun cursor => ?_
  have known := (unmarked text modifier).mono later known
  split
  · refine maintains_advance.bind fun after later _ _ => maintains_cursor fun start => ?_
    refine (reader after).bind fun last grows field fieldKnown => ?_
    have known := (unmarked text modifier).mono (inv.trans later grows) known
    split
    · exact maintains_throw _
    · rename_i noExpand
      refine maintains_pure ⟨text.join known.1 known.2.1 fieldKnown noExpand, ?_, ?_⟩
      · exact Atom.modifier_attach field target .plain
      · exact (Atom.leftmost_attach field target .plain).symm ▸ known.2.2
  · exact maintains_pure known

theorem Reader.step (rounds : Nat) : Reader text (step read rounds) := by
  refine fun base => maintains_skipTrivia.bind fun _ _ _ _ => ?_
  refine maintains_modifier.bind fun _ _ modifier _ => ?_
  refine (reader.body rounds modifier).bind fun _ _ target known => ?_
  refine (reader.access known).map fun _ _ atom known => ?_
  exact text.mark modifier known.1 known.2.1 known.2.2

end Parts

theorem reader_atom (fuel : Nat) : Reader text (atom fuel) := by
  induction fuel with
  | zero => exact fun _ => maintains_fail _
  | succ fuel ih => exact Reader.step ih fuel

theorem maintains_program (fuel : Nat) : Maintains text.kind base (program fuel) := by
  refine maintains_skipTrivia.bind fun after _ _ _ => maintains_cursor fun cursor => ?_
  split
  · exact maintains_fail _
  · refine (reader_atom text fuel after).bind fun _ _ _ known => ?_
    refine maintains_skipTrivia.bind fun _ grows _ _ => maintains_cursor fun cursor => ?_
    split
    · exact maintains_pure (text.kind.mono grows known)
    · exact maintains_fail _

end ReadM

/-- Reading keeps an invariant, and the atom that it gives is one of source text. -/
theorem Invariant.Text.read {inv : Invariant} (text : inv.Text) {base : Heap} (source : Source)
    (kept : inv.heap base) :
    inv.heap (source.read base).2 ∧ inv.later base (source.read base).2 ∧
      ∀ atom, (source.read base).1 = .ok atom → text.kind.holds (source.read base).2 atom := by
  let cursor := Cursor.ofText source.content
  have maintains : ReadM.Maintains text.kind base (ReadM.program (cursor.rest.length + 1)) :=
    ReadM.maintains_program text _
  obtain ⟨later, heap, known⟩ := maintains ⟨cursor, base⟩ (inv.refl base) kept
  refine ⟨heap, later, fun atom given => known atom ?_⟩
  change (outcome (ReadM.program (cursor.rest.length + 1)) ⟨cursor, base⟩).1.mapError
    (·.toError source) = .ok atom at given
  generalize (outcome (ReadM.program (cursor.rest.length + 1)) ⟨cursor, base⟩).1 = result at given
  cases result with
  | error fault => cases given
  | ok atom => exact congrArg Except.ok (Except.ok.inj given)

/-- An invariant that allows the atoms of source text is kept by reading. -/
theorem Invariant.Text.reads {inv : Invariant} (text : inv.Text) : inv.Reads := by
  intro base source kept
  obtain ⟨heap, later, known⟩ := text.read source kept
  exact ⟨heap, later, fun atom given => text.atom (known atom given)⟩

end RecordLisp
