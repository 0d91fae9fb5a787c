import RecordLisp.Error
import RecordLisp.Json.Reader
import RecordLisp.Json.Writer

/-!
# Errors as JSON

An evaluation error is stored as an object with the name of its kind and its detail. Reading takes
the two members in either order, or as an array of two, and passes over members it does not know.
The detail of a parse error is an object with all of its fields side by side.
-/

namespace RecordLisp

namespace ParseError

/-- The fields of a parse error in an object. -/
def toJson (error : ParseError) : String :=
  Json.writeObject
    [("file", Json.writeText error.file),
     ("message", Json.writeText error.message),
     ("offset", Json.writeNatural error.position.offset),
     ("line", Json.writeNatural error.position.line.toNat),
     ("column", Json.writeNatural error.position.column.toNat),
     ("source_line", Json.writeText error.sourceLine)]

/-- Reads a parse error from an object with all of its fields. -/
def ofJson? (document : Json) : Option ParseError := do
  let members ← document.members?
  let file ← (← requiredMember? members "file").text?
  let message ← (← requiredMember? members "message").text?
  let offset ← (← requiredMember? members "offset").natural? (2 ^ 64)
  let line ← (← requiredMember? members "line").natural? (2 ^ 32)
  let column ← (← requiredMember? members "column").natural? (2 ^ 32)
  let sourceLine ← (← requiredMember? members "source_line").text?
  return ⟨file, message, ⟨offset, .ofNat line, .ofNat column⟩, sourceLine⟩

end ParseError

namespace EvalError

/-- The name of the kind of an error. -/
def kind : EvalError → String
  | .undefinedVariable _ => "undefined_variable"
  | .unknownFunction _ => "unknown_function"
  | .typeMismatch _ => "type_mismatch"
  | .arity _ => "arity"
  | .missingMember _ => "missing_member"
  | .arithmeticTrap _ => "arithmetic_trap"
  | .io _ => "io"
  | .parse _ => "parse"
  | .gasExhausted _ => "gas_exhausted"
  | .runtime _ => "runtime"

/-- The detail of an error. -/
def detailJson : EvalError → String
  | .undefinedVariable text | .unknownFunction text | .typeMismatch text | .arity text
  | .missingMember text | .arithmeticTrap text | .io text | .runtime text => Json.writeText text
  | .parse error => error.toJson
  | .gasExhausted limit => Json.writeNatural limit.toNat

/-- The object that an error is stored as. -/
def toJson (error : EvalError) : String :=
  Json.writeObject [("kind", Json.writeText error.kind), ("detail", error.detailJson)]

/-- The error of a kind with a detail. -/
def ofDetail? (kind : String) (detail : Json) : Option EvalError :=
  match kind with
  | "undefined_variable" => detail.text?.map .undefinedVariable
  | "unknown_function" => detail.text?.map .unknownFunction
  | "type_mismatch" => detail.text?.map .typeMismatch
  | "arity" => detail.text?.map .arity
  | "missing_member" => detail.text?.map .missingMember
  | "arithmetic_trap" => detail.text?.map .arithmeticTrap
  | "io" => detail.text?.map .io
  | "parse" => (ParseError.ofJson? detail).map .parse
  | "gas_exhausted" => (detail.natural? (2 ^ 64)).map fun limit => .gasExhausted (.ofNat limit)
  | "runtime" => detail.text?.map .runtime
  | _ => none

/-- The name of a kind: a string, or an object whose only member has that name and is null. -/
def kindName? : Json → Option String
  | .string text => text
  | .object [(name, .null)] => name
  | _ => none

/-- Most arrays and objects inside one another that a detail may have. -/
def detailDepth : Nat := 126

/-- The error that a kind and a detail in JSON give. -/
def ofParts? (kind detail : Json) : Option EvalError := do
  let name ← kindName? kind
  if detail.isStrict detailDepth then ofDetail? name detail else none

/-- Reads an error from a document. -/
def ofDocument? : Json → Option EvalError
  | .array [kind, detail] => ofParts? kind detail
  | document => do
      let members ← document.members?
      ofParts? (← requiredMember? members "kind")
        (← requiredMember? members "detail")

/-- Reads an error from a text. -/
def ofJson? (text : String) : Option EvalError := (Json.read text).bind ofDocument?

end EvalError

end RecordLisp
