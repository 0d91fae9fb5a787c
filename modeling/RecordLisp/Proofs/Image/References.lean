import RecordLisp.Proofs.Image.Acceptance

/-!
# References in an image

A program that rebuilds an environment makes its records and functions first, and refers to them by
number afterwards. The texts of expressions and of lines are described here by what they consist of,
with a bound on every number: a reference in the program of an image is always to a record or a
function that it makes.
-/

namespace RecordLisp

namespace Image

variable {image : Image}

/-- The texts of expressions that refer to objects of the image only. Printed data has no
references: it is behind a quotation mark or is a literal record. -/
inductive RefersWithin (image : Image) : String → Prop where
  | nil : RefersWithin image "nil"
  | integer {value : Integer} : RefersWithin image value.text
  | decimal {value : Decimal} : RefersWithin image value.text
  | string {text : String} : RefersWithin image (Text.quoted text)
  | token {name : String} : RefersWithin image ("'" ++ name)
  | stot {text : String} : RefersWithin image ("(stot " ++ Text.quoted text ++ ")")
  | quoted {atom : Atom} : RefersWithin image ("'" ++ image.heap.print atom)
  | literal {id : RecordId} : image.recordNumber? id = none →
      RefersWithin image (image.heap.print (.record id))
  | record {number : Nat} :
      number < image.records.length → RefersWithin image (recordReference number)
  | function {number : Nat} :
      number < image.functions.length → RefersWithin image (functionReference number)
  | list {items : List String} : (∀ item ∈ items, RefersWithin image item) →
      RefersWithin image ("(list" ++ String.join (items.map (" " ++ ·)) ++ ")")

/-- The lines that link and fill the objects of the image, and refer to these only. -/
inductive Line (image : Image) : String → Prop where
  | scope {function scope : Nat} :
      function < image.functions.length → scope < image.records.length →
      Line image
        ("    (set-decl-scope " ++ functionReference function ++ " " ++ recordReference scope ++
          ")\n")
  | fields {number : Nat} {pairs : List (String × String)} : number < image.records.length →
      (∀ pair ∈ pairs, image.RefersWithin pair.2) →
      Line image ("    (multi-set " ++ recordReference number ++
        String.join (pairs.map fun pair => " (" ++ pair.1 ++ " " ++ pair.2 ++ ")") ++ ")\n")
  | parent {number parent : Nat} : number < image.records.length → parent < image.records.length →
      Line image
        ("    (set-parent " ++ recordReference number ++ " " ++ recordReference parent ++ ")\n")

theorem lt_of_recordNumber? {id : RecordId} {number : Nat}
    (numbered : image.recordNumber? id = some number) :
    number < image.records.length :=
  image.coherent.records.lt_length numbered

theorem lt_of_functionNumber? {id : FunctionId} {number : Nat}
    (numbered : image.functionNumber? id = some number) : number < image.functions.length :=
  image.coherent.functions.lt_length numbered

theorem refersWithin_stringLiteral {text literal : String}
    (written : stringLiteral text = .ok literal) :
    image.RefersWithin literal := by
  obtain ⟨_, rfl⟩ := stringLiteral_eq_ok written
  exact .string

theorem refersWithin_leafExpression {value : Leaf} {text : String}
    (written : image.leafExpression value = .ok text) : image.RefersWithin text := by
  cases value with
  | nil =>
      cases written
      exact .nil
  | integer value =>
      cases written
      exact .integer
  | decimal value =>
      rw [leafExpression, decimalLiteral] at written
      split at written
      · cases written
        exact .decimal
      · cases written
  | string text => exact refersWithin_stringLiteral written
  | token name =>
      rw [leafExpression] at written
      split at written
      · cases written
        exact .token
      · obtain ⟨literal, quoted, written⟩ := exists_ok_of_bind written
        obtain ⟨_, rfl⟩ := stringLiteral_eq_ok quoted
        cases written
        exact .stot
  | record id =>
      rw [leafExpression] at written
      split at written
      · rename_i number numbered
        cases written
        exact .record (lt_of_recordNumber? numbered)
      · rename_i unnumbered
        split at written
        · cases written
          exact .literal unnumbered
        · cases written
  | function id =>
      rw [leafExpression] at written
      split at written
      · rename_i number numbered
        cases written
        exact .function (lt_of_functionNumber? numbered)
      · cases written
        exact .nil

mutual

theorem refersWithin_expression :
    ∀ (value : Atom) {text : String}, image.expression value = .ok text →
    image.RefersWithin text
  | .leaf _ value, text, written => refersWithin_leafExpression written
  | .list _ items, text, written => by
      rw [expression] at written
      split at written
      · cases written
        exact .quoted
      · obtain ⟨more, built, written⟩ := exists_ok_of_bind written
        cases written
        obtain ⟨texts, within, rfl⟩ := refersWithin_expressions items built
        exact .list within
  | .member _ target field, text, written => by
      rw [expression] at written
      split at written
      · cases written
        exact .quoted
      · cases written

theorem refersWithin_expressions : ∀ (items : List Atom) {text : String},
    image.expressions items = .ok text →
    ∃ texts : List String, (∀ item ∈ texts, image.RefersWithin item) ∧
      text = String.join (texts.map (" " ++ ·))
  | [], text, written => by
      cases written
      exact ⟨[], List.forall_mem_nil _, rfl⟩
  | item :: items, text, written => by
      rw [expressions] at written
      obtain ⟨one, here, written⟩ := exists_ok_of_bind written
      obtain ⟨more, behind, written⟩ := exists_ok_of_bind written
      cases written
      obtain ⟨texts, within, rfl⟩ := refersWithin_expressions items behind
      refine ⟨one :: texts,
        List.forall_mem_cons.mpr ⟨refersWithin_expression item here, within⟩, ?_⟩
      rw [List.map_cons, String.join_cons]

end

/-- Whether a text consists of lines that refer to objects of the image only. -/
def Lines (image : Image) (text : String) : Prop :=
  ∃ lines, (∀ line ∈ lines, image.Line line) ∧ text = String.join lines

theorem Line.lines {line : String} (isLine : image.Line line) : image.Lines line :=
  ⟨[line], List.forall_mem_singleton.mpr isLine, by simp [String.join_cons]⟩

theorem Lines.append {text more : String} (first : image.Lines text) (second : image.Lines more) :
    image.Lines (text ++ more) := by
  obtain ⟨lines, within, rfl⟩ := first
  obtain ⟨others, withinOthers, rfl⟩ := second
  refine ⟨lines ++ others, List.forall_mem_append.mpr ⟨within, withinOthers⟩, ?_⟩
  rw [String.join_append]

end Image

end RecordLisp
