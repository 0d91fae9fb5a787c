import RecordLisp.Atom.Basic

/-!
# Signatures

A signature is the list of formal parameters of a function. A formal is written as a token: its
modifier picks whether the operand arrives evaluated or as written, and a leading plus sign or
asterisk makes it a rest parameter, which collects all remaining operands. Only the last formal can
be one.
-/

namespace RecordLisp

/-- How an operand reaches a formal parameter. -/
inductive Convention where
  | evaluated
  | quoted
deriving DecidableEq, Inhabited

/-- How many operands a rest parameter asks for. -/
inductive Rest where
  | oneOrMore
  | zeroOrMore
deriving DecidableEq, Inhabited

namespace Rest

/-- The character in front of the name. -/
def sigil : Rest → Char
  | .oneOrMore => '+'
  | .zeroOrMore => '*'

/-- The fewest operands that are accepted. -/
def minimum : Rest → Nat
  | .oneOrMore => 1
  | .zeroOrMore => 0

end Rest

/-- A formal parameter. -/
structure Param where
  /-- the name that is bound, without the sigil of a rest parameter -/
  name : String
  convention : Convention
  rest : Option Rest
deriving DecidableEq, Inhabited

/-- Why a list of atoms is not a signature. -/
inductive SignatureFault where
  | notToken (found : String)
  | expandMarked (name : String)
  | evaluateMarked (name : String)
  | restNotLast (formal : String)
deriving DecidableEq, Inhabited

/-- The wording of a cause. -/
def SignatureFault.message : SignatureFault → String
  | .notToken found => "formal parameter must be a token, found " ++ found
  | .expandMarked name => "expand modifier is illegal on formal `" ++ name ++ "`"
  | .evaluateMarked name => "evaluate modifier is illegal on formal `" ++ name ++ "`"
  | .restNotLast formal => "rest parameter `" ++ formal ++ "` must be the last formal"

namespace Param

/-- Divides the text of a formal into its sigil and its name. A sigil alone is a name. -/
def splitSigil (text : String) : Option Rest × String :=
  match text.toList with
  | '+' :: ch :: rest => (some .oneOrMore, String.ofList (ch :: rest))
  | '*' :: ch :: rest => (some .zeroOrMore, String.ofList (ch :: rest))
  | _ => (none, text)

/-- Reads a formal from an atom. -/
def ofAtom (atom : Atom) : Except SignatureFault Param :=
  match atom.token? with
  | none => .error (.notToken atom.typeName)
  | some text =>
      let (rest, name) := splitSigil text
      match atom.modifier with
      | .plain => .ok ⟨name, .evaluated, rest⟩
      | .quote => .ok ⟨name, .quoted, rest⟩
      | .expand => .error (.expandMarked text)
      | .evaluate => .error (.evaluateMarked text)

/-- The token text of a formal, sigil included. -/
def tokenText (param : Param) : String :=
  match param.rest with
  | some rest => String.singleton rest.sigil ++ param.name
  | none => param.name

/-- The modifier that a formal is written with. -/
def modifier (param : Param) : Modifier :=
  match param.convention with
  | .evaluated => .plain
  | .quoted => .quote

/-- The atom that a formal is written as. -/
def toAtom (param : Param) : Atom := .leaf param.modifier (.token param.tokenText)

/-- The text that a formal is written as. -/
def text (param : Param) : String := param.modifier.text ++ param.tokenText

/-- Dividing a text and putting it together again changes nothing. -/
theorem tokenText_splitSigil (text : String) (convention : Convention) :
    tokenText ⟨(splitSigil text).2, convention, (splitSigil text).1⟩ = text := by
  have join (sigil : Char) (rest : List Char) (spelled : text.toList = sigil :: rest) :
      String.singleton sigil ++ String.ofList rest = text := by
    rw [← String.toList_inj]
    simp [spelled]
  unfold splitSigil tokenText
  split <;> rename_i spelled
  · split at spelled
    · cases spelled
      exact join _ _ ‹_›
    · cases spelled
      exact join _ _ ‹_›
    · cases spelled
  · split at spelled
    · cases spelled
    · cases spelled
    · rfl

/-- A formal that was read is written as an atom that is read as the same formal. -/
theorem ofAtom_toAtom {atom : Atom} {param : Param} (read : ofAtom atom = .ok param) :
    ofAtom param.toAtom = .ok param := by
  unfold ofAtom at read
  cases named : atom.token? with
  | none =>
      rw [named] at read
      cases read
  | some text =>
      cases marked : atom.modifier <;> simp [named, marked] at read
      all_goals
        subst read
        simp [ofAtom, toAtom, Atom.token?, modifier, Atom.modifier, tokenText_splitSigil]

/-- Every formal of a list that was read can be written and read again. -/
theorem ofAtom_toAtom_of_mapM {formals : List Atom} {params : List Param}
    (read : formals.mapM ofAtom = .ok params) :
    ∀ param ∈ params, ofAtom param.toAtom = .ok param := by
  induction formals generalizing params with
  | nil =>
      cases read
      simp
  | cons formal formals ih =>
      rw [List.mapM_cons] at read
      cases first : ofAtom formal with
      | error fault =>
          rw [first] at read
          cases read
      | ok param =>
          cases others : formals.mapM ofAtom with
          | error fault =>
              rw [first, others] at read
              cases read
          | ok rest =>
              rw [first, others] at read
              cases read
              intro other mem
              rcases List.mem_cons.mp mem with rfl | later
              · exact ofAtom_toAtom first
              · exact ih others other later

end Param

/-- The formal parameters of a function. -/
structure Signature where
  params : List Param
  /-- only the last formal can be a rest parameter -/
  rest_last : ∀ param ∈ params.dropLast, param.rest = none
  /-- a formal is what the atom it is written as says -/
  readable : ∀ param ∈ params, Param.ofAtom param.toAtom = .ok param
deriving DecidableEq

namespace Signature

/-- The signature without formals. -/
def empty : Signature := ⟨[], by simp, by simp⟩

instance : Inhabited Signature := ⟨empty⟩

/-- Reads a signature from its formals. -/
def ofFormals (formals : List Atom) : Except SignatureFault Signature :=
  match read : formals.mapM Param.ofAtom with
  | .error fault => .error fault
  | .ok params =>
      match found : params.dropLast.find? (·.rest.isSome) with
      | some param => .error (.restNotLast param.text)
      | none =>
          .ok ⟨params,
            fun param mem => by simpa using List.find?_eq_none.mp found param mem,
            Param.ofAtom_toAtom_of_mapM read⟩

/-- The rest parameter, when there is one. -/
def rest? (signature : Signature) : Option Param :=
  signature.params.getLast?.filter (·.rest.isSome)

/-- The formals that take exactly one operand each. -/
def fixed (signature : Signature) : List Param :=
  if signature.rest?.isSome then signature.params.dropLast else signature.params

/-- The fewest operands that the rest parameter takes. -/
def restMinimum (signature : Signature) : Nat :=
  match signature.rest?.bind (·.rest) with
  | some rest => rest.minimum
  | none => 0

/-- The atoms that the formals are written as. -/
def toAtoms (signature : Signature) : List Atom := signature.params.map Param.toAtom

/-- The text of the formals, divided by blanks. -/
def text (signature : Signature) : String := " ".intercalate (signature.params.map Param.text)

end Signature

end RecordLisp
