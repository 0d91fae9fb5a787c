import RecordLisp.Json.Reader
import RecordLisp.Json.Writer

/-!
# Settings

What a host can choose about a session. Every setting has a default. In JSON the settings are the
members of an object, or in a fixed order the items of an array; a setting that is left out keeps
its default and members that are not settings are passed over.
-/

namespace RecordLisp

/-- The settings of a session. -/
structure Config where
  /-- steps that one evaluation may take, or nothing for no limit -/
  gasLimit : Option UInt64 := none
  /-- name under which the global scope refers to itself, or nothing for no such name -/
  selfBinding : Option String := some "@"
deriving DecidableEq

namespace Config

/-- The settings when none is given. -/
def standard : Config := {}

instance : Inhabited Config := ⟨standard⟩

/-- Reads the limit: null or an integer that fits in 64 bits. -/
def readLimit : Json → Except Unit (Option UInt64)
  | .null => .ok none
  | value =>
      match value.natural? (2 ^ 64) with
      | some limit => .ok (some (.ofNat limit))
      | none => .error ()

/-- Reads the name: null or a string. -/
def readBinding : Json → Except Unit (Option String)
  | .null => .ok none
  | value =>
      match value.text? with
      | some name => .ok (some name)
      | none => .error ()

/-- Reads a setting, or keeps its default when it is left out. -/
def readSetting {α : Type} (read : Json → Except Unit α) (default : α) :
    Option Json → Except Unit α
  | some value => read value
  | none => .ok default

/-- Reads settings from the documents given for them. -/
def ofSettings (limit binding : Option Json) : Except Unit Config := do
  let gasLimit ← readSetting readLimit standard.gasLimit limit
  let selfBinding ← readSetting readBinding standard.selfBinding binding
  return { gasLimit, selfBinding }

/-- Reads settings from a document. -/
def ofDocument : Json → Except Unit Config
  | .array [] => ofSettings none none
  | .array [limit] => ofSettings (some limit) none
  | .array [limit, binding] => ofSettings (some limit) (some binding)
  | document => do
      let some members := document.members? | throw ()
      ofSettings (← uniqueMember? members "gas_limit") (← uniqueMember? members "self_binding")

/-- Reads settings from a text. -/
def ofJson? (text : String) : Option Config :=
  (Json.read text).bind fun document => (ofDocument document).toOption

/-- The object that settings are stored as. -/
def toJson (config : Config) : String :=
  Json.writeObject
    [("gas_limit", Json.writeOption (fun limit => Json.writeNatural limit.toNat) config.gasLimit),
     ("self_binding", Json.writeOption Json.writeText config.selfBinding)]

end Config

end RecordLisp
