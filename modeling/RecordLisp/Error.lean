import RecordLisp.Source.Basic

/-!
# Errors of evaluation and setup

An evaluation error is one of ten kinds with a detail, so that a host can store it and tell the
kinds apart. A setup error says why a builtin could not be registered. The wording of both is here.
-/

namespace RecordLisp

/-- Why an evaluation failed. -/
inductive EvalError where
  | undefinedVariable (name : String)
  | unknownFunction (name : String)
  | typeMismatch (detail : String)
  | arity (detail : String)
  | missingMember (name : String)
  | arithmeticTrap (detail : String)
  | io (detail : String)
  | parse (error : ParseError)
  | gasExhausted (limit : UInt64)
  | runtime (detail : String)
deriving DecidableEq

namespace EvalError

instance : Inhabited EvalError := ⟨.runtime ""⟩

/-- The wording of an error. -/
def message : EvalError → String
  | .undefinedVariable name => "variable not found: " ++ name
  | .unknownFunction name => "unknown function: " ++ name
  | .typeMismatch detail => "type mismatch: " ++ detail
  | .arity detail => "arity mismatch: " ++ detail
  | .missingMember name => "member not found: " ++ name
  | .arithmeticTrap detail => "arithmetic trap: " ++ detail
  | .io detail => "i/o error: " ++ detail
  | .parse error => error.text
  | .gasExhausted limit => "gas exhausted after " ++ limit.toNat.repr ++ " steps"
  | .runtime detail => "runtime error: " ++ detail

/-- An argument of a builtin is of the wrong kind. Positions count from one. -/
def argument (function : String) (position : Nat) (expected found : String) : EvalError :=
  .typeMismatch ("argument " ++ position.repr ++ " to `" ++ function ++ "`: expected " ++
    expected ++ ", found " ++ found)

end EvalError

/-- Why a builtin could not be registered. -/
inductive SetupError where
  | malformedDeclaration (declaration reason : String)
  | duplicate (name : String)
  | parse (error : ParseError)
deriving DecidableEq, Inhabited

/-- The wording of an error. -/
def SetupError.message : SetupError → String
  | .malformedDeclaration declaration reason =>
      "malformed declaration `" ++ declaration ++ "`: " ++ reason
  | .duplicate name => "builtin `" ++ name ++ "` is already registered"
  | .parse error => "declaration does not parse: " ++ error.text

end RecordLisp
