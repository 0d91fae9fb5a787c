import RecordLisp.Eval.Argument
import RecordLisp.Image

/-!
# Storage

Saving a record as a program, and reading and writing whole files.
-/

namespace RecordLisp.Builtin

/-- The program that rebuilds a record. -/
def serialize (root : Atom) : EvalM Atom := do
  let id ← ArgumentPlace.record ⟨"serialize", 1⟩ root
  return .string (← ((← EvalM.heap).save id : Except EvalError String))

/-- The error of a file that cannot be read or written. -/
def fileError (path : String) (fault : FileFault) : EvalError := .io (path ++ ": " ++ fault.message)

/-- Writes a text as a whole file, and gives the text. -/
def writeFile (path text : Atom) : EvalM Atom := do
  let path ← ArgumentPlace.string ⟨"write-all", 1⟩ path
  let content ← ArgumentPlace.string ⟨"write-all", 2⟩ text
  let machine ← get
  match machine.files.write path content with
  | .ok files =>
      set { machine with files }
      return text
  | .error fault => EvalM.fail (fileError path fault)

/-- The text of a whole file. -/
def readFile (path : Atom) : EvalM Atom := do
  let path ← ArgumentPlace.string ⟨"read-all", 1⟩ path
  match (← get).files.read path with
  | .ok text => return .string text
  | .error fault => EvalM.fail (fileError path fault)

end RecordLisp.Builtin
