import RecordLisp.Eval.Argument

/-!
# Lists

Making lists and taking them apart. A string can be measured and indexed like a list; its items are
the codes of its characters.
-/

namespace RecordLisp.Builtin

/-- The item at an index that counts from zero. -/
def itemAt {α : Type} (function : String) (items : List α) (index : Integer) : Except EvalError α :=
  let item := if 0 ≤ index.val then items[index.val.toNat]? else none
  match item with
  | some item => .ok item
  | none =>
      .error (.arithmeticTrap (function ++ ": index " ++ index.text ++
        " out of range for length " ++ items.length.repr))

/-- The code of a character as an integer. -/
def characterCode (ch : Char) : Atom := .integer (.clamp ch.toNat)

/-- The number of items of a list or of characters of a string. -/
def length (value : Atom) : Except EvalError Atom :=
  match value with
  | .list _ items => .ok (.ofLength items.length)
  | .leaf _ (.string text) => .ok (.ofLength text.length)
  | value => .error (.argument "length" 1 "list or string" value.typeName)

/-- The item of a list, or the code of the character of a string, at an index. -/
def indexGet (value index : Atom) : Except EvalError Atom := do
  let index ← ArgumentPlace.integer ⟨"index-get", 2⟩ index
  match value with
  | .list _ items => itemAt "index-get" items index
  | .leaf _ (.string text) => return characterCode (← itemAt "index-get" text.toList index)
  | value => throw (.argument "index-get" 1 "list or string" value.typeName)

/-- A list with another item at an index. -/
def replaceAt (list index value : Atom) : Except EvalError Atom := do
  let items ← ArgumentPlace.list ⟨"replace-at", 1⟩ list
  let index ← ArgumentPlace.integer ⟨"replace-at", 2⟩ index
  let _ ← itemAt "replace-at" items index
  return .ofList (items.set index.val.toNat value)

/-- The values of as many further evaluations of an atom, after those in `values`, the latest in
front. -/
def evaluateTimes (evaluator : Evaluator) (code : Atom) : Nat → List Atom → EvalM (List Atom)
  | 0, values => pure values.reverse
  | count + 1, values => do
      let value ← evaluator.eval code
      evaluateTimes evaluator code count (value :: values)

/-- A list of as many values of an atom, which is evaluated for each. -/
def array (evaluator : Evaluator) (count code : Atom) : EvalM Atom := do
  let count ← ArgumentPlace.integer ⟨"array", 1⟩ count
  return .ofList (← evaluateTimes evaluator code count.val.toNat [])

/-- The last item, or nil when there is none. -/
def last (list : Atom) : Except EvalError Atom := do
  return (← ArgumentPlace.list ⟨"last", 1⟩ list).getLast?.getD .nil

/-- The items in opposite order. -/
def reverse (list : Atom) : Except EvalError Atom := do
  return .ofList (← ArgumentPlace.list ⟨"reverse", 1⟩ list).reverse

end RecordLisp.Builtin
