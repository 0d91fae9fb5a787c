import RecordLisp.Atom.Member
import RecordLisp.Heap.Basic
import RecordLisp.Source.Scan

/-!
# Reading atoms

The reader turns a source text into one atom and stops at the first fault. A record literal goes
into the heap as soon as its closing bracket is read, so records that were finished before a fault
stay there.

Reading is bounded by the number of characters: every nested or following atom starts at least one
character further on, so the bound that `Source.read` gives is never met.
-/

namespace RecordLisp

/-- Where the reader is and the heap it fills. -/
structure ReadState where
  cursor : Cursor
  heap : Heap

/-- A step of reading. A failing step keeps what it did to the state. -/
abbrev ReadM := ExceptT Fault (StateM ReadState)

namespace ReadM

/-- The cursor. -/
def cursor : ReadM Cursor := do return (← get).cursor

/-- Moves the cursor. -/
def moveTo (cursor : Cursor) : ReadM Unit := modify fun state => { state with cursor }

/-- Moves past the next character. -/
def advance : ReadM Unit := modify fun state => { state with cursor := state.cursor.advance }

/-- Moves past separators and comments. -/
def skipTrivia : ReadM Unit :=
  modify fun state => { state with cursor := state.cursor.skipTrivia }

/-- Fails at the cursor. -/
def fail {α : Type} (cause : SyntaxFault) : ReadM α := do throw ((← cursor).fault cause)

/-- Runs a scanner. -/
def scan {α : Type} (scanner : Cursor → Scanned α) : ReadM α := do
  let (result, after) := scanner (← cursor)
  moveTo after
  match result with
  | .ok value => return value
  | .error fault => throw fault

/-- Puts a record into the heap. -/
def alloc (record : Record) : ReadM RecordId := do
  let state ← get
  let (id, heap) := state.heap.allocRecord record
  set { state with heap }
  return id

/-- Reads the modifier that comes next, if there is one. -/
def modifier : ReadM Modifier := do
  match (← cursor).peek?.bind Modifier.ofChar? with
  | some modifier =>
      advance
      return modifier
  | none => return .plain

/-- Reads the items of a list up to its closing parenthesis. -/
def items (read : ReadM Atom) (opened : Position) : Nat → ReadM (List Atom)
  | 0 => throw ⟨.unterminatedList, opened⟩
  | rounds + 1 => do
      skipTrivia
      match (← cursor).peek? with
      | none => throw ⟨.unterminatedList, opened⟩
      | some ')' =>
          advance
          return []
      | some _ =>
          let item ← read
          return item :: (← items read opened rounds)

/-- The field that an entry of a record literal gives: a list of a name and a value. -/
def field (entry : Atom) : Except SyntaxFault (String × Atom) :=
  match entry.list? with
  | none => .error .entryNotList
  | some [name, value] =>
      match name.name? with
      | some name => .ok (name, value)
      | none => .error .entryNotNamed
  | some _ => .error .entryNotPair

/-- Reads the entries of a record literal up to its closing bracket. A later entry overwrites an
earlier one of the same name. -/
def entries (read : ReadM Atom) (opened : Position) : Nat → Record → ReadM Record
  | 0, _ => throw ⟨.unterminatedRecord, opened⟩
  | rounds + 1, record => do
      skipTrivia
      let start ← cursor
      match start.peek? with
      | none => throw ⟨.unterminatedRecord, opened⟩
      | some ']' =>
          advance
          return record
      | some _ =>
          let entry ← read
          match field entry with
          | .error cause => throw (start.fault cause)
          | .ok (name, value) => entries read opened rounds (record.insert name value)

/-- Whether source text gives a leaf no modifier. -/
def isLiteral : Leaf → Bool
  | .integer _ | .decimal _ | .string _ => true
  | _ => false

/-- Reads a number, a string or a token. -/
def leaf (modifier : Modifier) : ReadM Atom := do
  let start ← cursor
  let leaf ← scan Cursor.scanLeaf
  if modifier ≠ .plain ∧ isLiteral leaf then throw (start.fault .modifierOnLiteral)
  else if leaf = .token "" then throw (start.fault .expectedAtom)
  else return .leaf .plain leaf

/-- Reads an atom without its modifier and without a field access behind it. -/
def body (read : ReadM Atom) (rounds : Nat) (modifier : Modifier) : ReadM Atom := do
  let start ← cursor
  match start.peek? with
  | none => fail .endOfInput
  | some '(' =>
      advance
      return .ofList (← items read start.position rounds)
  | some '[' =>
      if modifier ≠ .plain then fail .modifierOnRecord
      else
        advance
        let record ← entries read start.position rounds .emptyLiteral
        return .record (← alloc record)
  | some ')' => fail (.unexpected ')')
  | some ']' => fail (.unexpected ']')
  | some _ => leaf modifier

/-- Reads the field access behind an atom, if there is one. -/
def access (read : ReadM Atom) (target : Atom) : ReadM Atom := do
  skipTrivia
  if (← cursor).peek? = some '.' then
    advance
    let start ← cursor
    let field ← read
    if field.modifier = .expand then throw (start.fault .modifierOnField)
    else return target.join field
  else return target

/-- Reads an atom, using `read` for the atoms inside and behind it. -/
def step (read : ReadM Atom) (rounds : Nat) : ReadM Atom := do
  skipTrivia
  let modifier ← modifier
  let target ← body read rounds modifier
  let atom ← access read target
  return atom.withModifier modifier

/-- Reads an atom with at most `fuel` levels of nesting. -/
def atom : Nat → ReadM Atom
  | 0 => fail .endOfInput
  | fuel + 1 => step (atom fuel) fuel

/-- Reads a whole text as exactly one atom. -/
def program (fuel : Nat) : ReadM Atom := do
  skipTrivia
  if (← cursor).atEnd then fail .endOfInput
  else
    let atom ← atom fuel
    skipTrivia
    if (← cursor).atEnd then return atom else fail .leftover

end ReadM

/-- Reads a source as exactly one atom. The records of its literals are in the new heap, also on
failure. -/
def Source.read (source : Source) (heap : Heap) : Except ParseError Atom × Heap :=
  let cursor := Cursor.ofText source.content
  let (result, state) := (ReadM.program (cursor.rest.length + 1)).run.run ⟨cursor, heap⟩
  (result.mapError (·.toError source), state.heap)

end RecordLisp
