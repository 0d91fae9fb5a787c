/-!
# Modifiers

A modifier is one character in front of an atom that changes how the atom is evaluated.
-/

namespace RecordLisp

/-- Evaluation treatment of an atom. -/
inductive Modifier where
  /-- no character: the atom is treated by its kind -/
  | plain
  /-- the quote mark: the atom is read literally -/
  | quote
  /-- the dollar sign: a list operand is spliced into the arguments -/
  | expand
  /-- the colon: evaluation is forced where the atom would be read literally -/
  | evaluate
deriving DecidableEq, Inhabited

namespace Modifier

/-- The modifier that a leading character denotes. -/
def ofChar? : Char → Option Modifier
  | '\x27' => some .quote
  | '$' => some .expand
  | ':' => some .evaluate
  | _ => none

/-- The character that is written for a modifier. -/
def char? : Modifier → Option Char
  | .plain => none
  | .quote => some '\x27'
  | .expand => some '$'
  | .evaluate => some ':'

/-- The text that is written for a modifier. -/
def text (modifier : Modifier) : String :=
  match modifier.char? with
  | some ch => String.singleton ch
  | none => ""

/-- Whether the modifier is the quote mark. -/
def isQuote (modifier : Modifier) : Bool := modifier == .quote

/-- The modifier itself, or `other` when there is none. -/
def orElse (modifier other : Modifier) : Modifier :=
  if modifier = .plain then other else modifier

theorem ofChar?_eq_some_iff {ch : Char} {modifier : Modifier} :
    ofChar? ch = some modifier ↔ modifier.char? = some ch := by
  constructor
  · intro read
    unfold ofChar? at read
    split at read <;> cases read <;> rfl
  · intro written
    cases modifier <;> simp [char?] at written <;> subst written <;> rfl

end Modifier

end RecordLisp
