import RecordLisp.Decimal.Arithmetic
import RecordLisp.Eval.Machine

/-!
# Arguments of builtins

Builtins check the kinds of their arguments through the functions here, so all of them report a
mismatch in the same words. A `Native` for a fixed number of arguments is made from a function of as
many atoms.
-/

namespace RecordLisp

/-- Where an argument stands: the builtin and the position, counted from one. -/
structure ArgumentPlace where
  function : String
  position : Nat

namespace ArgumentPlace

/-- The error that another kind of argument is expected here. -/
def mismatch (place : ArgumentPlace) (expected : String) (found : Atom) : EvalError :=
  .argument place.function place.position expected found.typeName

/-- The part of an argument that `view` gives, which all atoms of the expected kind have. -/
def expect {α : Type} (place : ArgumentPlace) (expected : String) (view : Atom → Option α)
    (argument : Atom) : Except EvalError α :=
  match view argument with
  | some value => .ok value
  | none => .error (place.mismatch expected argument)

/-- An integer argument. -/
def integer (place : ArgumentPlace) : Atom → Except EvalError Integer :=
  place.expect "integer" Atom.integer?

/-- A string argument. -/
def string (place : ArgumentPlace) : Atom → Except EvalError String :=
  place.expect "string" Atom.string?

/-- A token argument. -/
def token (place : ArgumentPlace) : Atom → Except EvalError String :=
  place.expect "token" Atom.token?

/-- A list argument. -/
def list (place : ArgumentPlace) : Atom → Except EvalError (List Atom) :=
  place.expect "list" Atom.list?

/-- A record argument. -/
def record (place : ArgumentPlace) : Atom → Except EvalError RecordId :=
  place.expect "record" Atom.record?

/-- A function argument. -/
def functionId (place : ArgumentPlace) : Atom → Except EvalError FunctionId :=
  place.expect "function" Atom.function?

end ArgumentPlace

/-- A number of either kind. -/
inductive Number where
  | integer (value : Integer)
  | decimal (value : Decimal)
deriving DecidableEq, Inhabited

namespace Number

/-- The number of an atom. -/
def ofAtom? : Atom → Option Number
  | .leaf _ (.integer value) => some (.integer value)
  | .leaf _ (.decimal value) => some (.decimal value)
  | _ => none

/-- The number as a decimal. -/
def toDecimal : Number → Decimal
  | .integer value => .ofInteger value
  | .decimal value => value

/-- Whether the number is a decimal. -/
def isDecimal : Number → Bool
  | .integer _ => false
  | .decimal _ => true

end Number

/-- A number argument. -/
def ArgumentPlace.number (place : ArgumentPlace) : Atom → Except EvalError Number :=
  place.expect "number" Number.ofAtom?

/-- The pairs that an argument list of pairs stands for: either the pairs themselves, or one list of
them. -/
def groupedPairs : List Atom → List Atom
  | [.list modifier items] =>
      match items with
      | [] => []
      | .list _ _ :: _ => items
      | _ => [.list modifier items]
  | items => items

/-- The name and the atom of a pair at a position, counted from one. -/
def bindingPair (function : String) (position : Nat) (pair : Atom) :
    Except EvalError (String × Atom) :=
  match pair.list? with
  | some [name, value] =>
      match name.name? with
      | some name => .ok (name, value)
      | none =>
          .error (.typeMismatch ("binding " ++ position.repr ++ " of `" ++ function ++
            "`: name must be a token, found " ++ name.typeName))
  | _ =>
      .error (.typeMismatch ("binding " ++ position.repr ++ " of `" ++ function ++
        "`: expected a (name value) pair, found " ++ pair.typeName))

/-- The names and atoms of pairs, the first at a position. -/
def bindingPairsFrom (function : String) : Nat → List Atom → Except EvalError Fields
  | _, [] => .ok []
  | position, pair :: pairs => do
      let binding ← bindingPair function position pair
      return binding :: (← bindingPairsFrom function (position + 1) pairs)

/-- The names and atoms that an argument list of pairs gives. -/
def bindingPairs (function : String) (items : List Atom) : Except EvalError Fields :=
  bindingPairsFrom function 1 (groupedPairs items)

namespace Native

/-- The stop for a call that did not go through binding. -/
def unbound : EvalM Atom := EvalM.fail (.arity "builtin called without its arguments")

/-- A builtin with one argument. -/
def unary (work : Evaluator → Atom → EvalM Atom) : Native
  | evaluator, [a] => work evaluator a
  | _, _ => unbound

/-- A builtin with two arguments. -/
def binary (work : Evaluator → Atom → Atom → EvalM Atom) : Native
  | evaluator, [a, b] => work evaluator a b
  | _, _ => unbound

/-- A builtin with three arguments. -/
def ternary (work : Evaluator → Atom → Atom → Atom → EvalM Atom) : Native
  | evaluator, [a, b, c] => work evaluator a b c
  | _, _ => unbound

/-- A builtin with four arguments. -/
def quaternary (work : Evaluator → Atom → Atom → Atom → Atom → EvalM Atom) : Native
  | evaluator, [a, b, c, d] => work evaluator a b c d
  | _, _ => unbound

/-- A builtin with five arguments. -/
def quinary (work : Evaluator → Atom → Atom → Atom → Atom → Atom → EvalM Atom) : Native
  | evaluator, [a, b, c, d, e] => work evaluator a b c d e
  | _, _ => unbound

/-- A builtin with one argument that needs nothing but it. -/
def pureUnary (work : Atom → Except EvalError Atom) : Native := unary fun _ a => work a

/-- A builtin with two arguments that needs nothing but them. -/
def pureBinary (work : Atom → Atom → Except EvalError Atom) : Native := binary fun _ a b => work a b

/-- A builtin with three arguments that needs nothing but them. -/
def pureTernary (work : Atom → Atom → Atom → Except EvalError Atom) : Native :=
  ternary fun _ a b c => work a b c

end Native

end RecordLisp
