import RecordLisp.Power
import RecordLisp.Text.Digits

/-!
# Templates

A template is a text with numbered placeholders: a number between braces. A doubled brace stands for
the brace itself. Filling a template goes from left to right and stops at the first fault.
-/

namespace RecordLisp.Text

/-- Why a template cannot be filled. -/
inductive TemplateFault where
  | malformedPlaceholder
  | emptyPlaceholder
  | noArgument (index : Nat)
  | unmatchedBrace
deriving DecidableEq, Inhabited

/-- The wording of a fault of a template that was given `count` arguments. -/
def TemplateFault.message (template : String) (count : Nat) : TemplateFault → String
  | .malformedPlaceholder => "format: malformed placeholder in \"" ++ template ++ "\""
  | .emptyPlaceholder => "format: empty placeholder in \"" ++ template ++ "\""
  | .noArgument index =>
      "format: placeholder \x7b" ++ index.repr ++ "\x7d has no argument (" ++ count.repr ++
        " given)"
  | .unmatchedBrace => "format: unmatched '\x7d' in \"" ++ template ++ "\""

/-- The number of a placeholder, which must fit in 64 bits. -/
def placeholderIndex (digits : List Char) : Except TemplateFault Nat :=
  match natural? digits with
  | some index => if index < 2 ^ 64 then .ok index else .error .emptyPlaceholder
  | none => .error .emptyPlaceholder

/-- The text that a placeholder stands for. -/
def placeholderText (argument : Nat → Option String) (digits : List Char) :
    Except TemplateFault (List Char) := do
  let index ← placeholderIndex digits
  match argument index with
  | some text => return text.toList
  | none => throw (.noArgument index)

mutual

/-- Fills a template from a place outside of placeholders on. -/
def fillText (argument : Nat → Option String) : List Char → Except TemplateFault (List Char)
  | [] => .ok []
  | '\x7b' :: '\x7b' :: rest => do return '\x7b' :: (← fillText argument rest)
  | '\x7d' :: '\x7d' :: rest => do return '\x7d' :: (← fillText argument rest)
  | '\x7b' :: rest => fillPlaceholder argument [] rest
  | '\x7d' :: _ => .error .unmatchedBrace
  | ch :: rest => do return ch :: (← fillText argument rest)

/-- Fills a template from inside a placeholder on, after some of its digits. -/
def fillPlaceholder (argument : Nat → Option String) (digits : List Char) :
    List Char → Except TemplateFault (List Char)
  | [] => .error .malformedPlaceholder
  | ch :: rest =>
      if ch = '\x7d' then do
        let text ← placeholderText argument digits
        return text ++ (← fillText argument rest)
      else if isDigit ch then fillPlaceholder argument (digits ++ [ch]) rest
      else .error .malformedPlaceholder

end

/-- Fills a template with the arguments that `argument` gives for their numbers. -/
def fill (template : String) (argument : Nat → Option String) : Except TemplateFault String := do
  return String.ofList (← fillText argument template.toList)

end RecordLisp.Text
