import RecordLisp.Source.Basic

/-!
# Cursors

A cursor is a place in a text together with the characters from there on. Going back is returning to
a cursor kept earlier, so no operation ever has to restore one.
-/

namespace RecordLisp

/-- The characters that separate atoms in source text. -/
def isSeparator (ch : Char) : Bool := ch == ' ' || ch == '\t' || ch == '\r' || ch == '\n'

/-- A place in a text and what follows it. -/
structure Cursor where
  rest : List Char
  position : Position
deriving DecidableEq, Inhabited

namespace Cursor

/-- The cursor before the first character of a text. -/
def ofText (text : String) : Cursor := ⟨text.toList, .start⟩

/-- The next character. -/
def peek? (cursor : Cursor) : Option Char := cursor.rest.head?

/-- The character `distance` places further on. -/
def peekAt? (cursor : Cursor) (distance : Nat) : Option Char := cursor.rest[distance]?

/-- Whether no character is left. -/
def atEnd (cursor : Cursor) : Bool := cursor.rest.isEmpty

/-- Whether there is a next character and it passes a test. -/
def nextIs (cursor : Cursor) (test : Char → Bool) : Bool := cursor.peek?.any test

/-- The cursor after the next character, or the same cursor at the end. -/
def advance (cursor : Cursor) : Cursor :=
  match cursor.rest with
  | [] => cursor
  | ch :: rest => ⟨rest, cursor.position.next ch⟩

/-- The cursor after the characters at the front of `rest` that pass a test. -/
def skipWhile (test : Char → Bool) : List Char → Position → Cursor
  | [], position => ⟨[], position⟩
  | ch :: rest, position =>
      if test ch then skipWhile test rest (position.next ch) else ⟨ch :: rest, position⟩

/-- The cursor after the next characters that pass a test. -/
def advanceWhile (cursor : Cursor) (test : Char → Bool) : Cursor :=
  skipWhile test cursor.rest cursor.position

/-- The cursor after separators and comments. A comment runs from a semicolon to the end of its
line. -/
def skipTriviaFrom (inComment : Bool) : List Char → Position → Cursor
  | [], position => ⟨[], position⟩
  | ch :: rest, position =>
      if inComment then skipTriviaFrom (ch != '\n') rest (position.next ch)
      else if isSeparator ch then skipTriviaFrom false rest (position.next ch)
      else if ch = ';' then skipTriviaFrom true rest (position.next ch)
      else ⟨ch :: rest, position⟩

/-- The cursor after the separators and comments that come next. -/
def skipTrivia (cursor : Cursor) : Cursor := skipTriviaFrom false cursor.rest cursor.position

/-- The text between an earlier cursor of the same text and this one. -/
def textSince (cursor start : Cursor) : String :=
  String.ofList (start.rest.take (cursor.position.offset - start.position.offset))

end Cursor

end RecordLisp
