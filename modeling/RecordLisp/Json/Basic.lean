import RecordLisp.Power

/-!
# JSON documents

The syntax tree of a JSON text. It keeps what the readers of settings and errors have to tell apart:
members in their order with repetitions, whether a number was written as a plain integer, and string
literals whose escapes do not form text.
-/

namespace RecordLisp

/-- A number as written: `digits * 10^exponent` with a sign. -/
structure JsonNumber where
  negative : Bool
  digits : Nat
  exponent : Int
  /-- whether there was neither a fraction nor an exponent -/
  plain : Bool
deriving DecidableEq, Inhabited

/-- The text of a string literal, or nothing when a surrogate in it stands alone. -/
abbrev JsonText := Option String

/-- A JSON document. -/
inductive Json where
  | null
  | bool (value : Bool)
  | number (value : JsonNumber)
  | string (text : JsonText)
  | array (items : List Json)
  | object (members : List (JsonText × Json))
deriving Inhabited

namespace JsonNumber

/-- The number of a natural number written plainly. -/
def ofNat (n : Nat) : JsonNumber := ⟨false, n, 0, true⟩

/-- The natural number below `bound` that was written plainly and without a sign. -/
def natural? (number : JsonNumber) (bound : Nat) : Option Nat :=
  if number.plain && !number.negative && number.digits < bound then some number.digits else none

/-- Whether the number stays finite when it is rounded to a 53-bit significand. -/
def isFinite (number : JsonNumber) : Bool :=
  let width : Int := number.digits.repr.length + number.exponent
  if number.digits = 0 || width ≤ 308 then true
  else if 309 < width then false
  else
    match number.exponent with
    | .ofNat e => number.digits * 10 ^ e < 2 ^ 1024 - 2 ^ 970
    | .negSucc e => number.digits < (2 ^ 1024 - 2 ^ 970) * 10 ^ (e + 1)

end JsonNumber

namespace Json

/-- The text of a string. -/
def text? : Json → Option String
  | .string text => text
  | _ => none

/-- The natural number below `bound` that a document is. -/
def natural? (bound : Nat) : Json → Option Nat
  | .number literal => literal.natural? bound
  | _ => none

mutual

/-- Whether every string is text, every number is finite and at most `depth` arrays and objects
stand inside one another. -/
def isStrict (depth : Nat) : Json → Bool
  | .null | .bool _ => true
  | .number literal => literal.isFinite
  | .string text => text.isSome
  | .array items => 0 < depth && itemsAreStrict (depth - 1) items
  | .object members => 0 < depth && membersAreStrict (depth - 1) members

/-- Whether the items of an array are strict. -/
def itemsAreStrict (depth : Nat) : List Json → Bool
  | [] => true
  | item :: items => item.isStrict depth && itemsAreStrict depth items

/-- Whether the members of an object are strict. -/
def membersAreStrict (depth : Nat) : List (JsonText × Json) → Bool
  | [] => true
  | (name, value) :: members =>
      name.isSome && value.isStrict depth && membersAreStrict depth members

end

/-- The members of an object under their names, when all names are text. -/
def members? : Json → Option (List (String × Json))
  | .object members => members.mapM fun (name, value) => name.map (·, value)
  | _ => none

end Json

/-- The value of the only member with a name. Fails when there are two. -/
def uniqueMember? (members : List (String × Json)) (name : String) : Except Unit (Option Json) :=
  match members.filter (·.1 == name) with
  | [] => .ok none
  | [(_, value)] => .ok (some value)
  | _ => .error ()

/-- The value of a member that has to be there, and only once. -/
def requiredMember? (members : List (String × Json)) (name : String) : Option Json :=
  match uniqueMember? members name with
  | .ok value => value
  | .error _ => none

end RecordLisp
