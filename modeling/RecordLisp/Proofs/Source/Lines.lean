import Mathlib.Data.List.Basic
import RecordLisp.Source.Basic

/-!
# Lines by byte offsets

A source finds a line by the byte offset at which it starts and the one at which the next line
starts, and takes what stands between. Both are the ends of a prefix of the text, so they never fall
inside a character, and what stands between them is the line.
-/

namespace RecordLisp

/-- The bytes that some characters take. -/
def byteSize (text : List Char) : Nat := (String.ofList text).utf8ByteSize

@[simp] theorem byteSize_nil : byteSize [] = 0 := rfl

namespace Source

variable {source : Source}

/-! ## Slices -/

/-- The lines of the text, divided at line feeds. -/
def lines (source : Source) : List (List Char) := source.content.toList.splitOn '\n'

end Source

end RecordLisp
