import RecordLisp.Record.Table

/-!
# Records

A record maps names to atoms and remembers the order in which names were first added. It may have a
parent, which lookups fall back on. A record that came straight from bracket syntax is literal. What
it maps is a coherent table, so no name occurs twice.
-/

namespace RecordLisp

/-- An object with named fields and an optional parent. -/
structure Record extends Table where
  coherent : toTable.Coherent
  parent : Option RecordId
  literal : Bool

namespace Record

/-- A record without fields and parent. -/
def empty : Record := ⟨.empty, Table.coherent_empty, none, false⟩

/-- A record without fields whose lookups fall back on `parent`. -/
def childOf (parent : RecordId) : Record := ⟨.empty, Table.coherent_empty, some parent, false⟩

/-- A record without fields as bracket syntax gives it. -/
def emptyLiteral : Record := ⟨.empty, Table.coherent_empty, none, true⟩

instance : Inhabited Record := ⟨empty⟩

/-- The value under a name of the record itself, never of its parent. -/
def get? (record : Record) (name : String) : Option Atom := record.toTable.get? name

/-- Whether the record itself has a name. -/
def contains (record : Record) (name : String) : Bool := record.toTable.contains name

/-- Stores a value under a name. -/
def insert (record : Record) (name : String) (value : Atom) : Record :=
  { record with
    toTable := (record.toTable.insert name value).2
    coherent := record.coherent.insert name value }

/-- Stores several values, one after the other. -/
def insertAll (record : Record) (fields : Fields) : Record :=
  fields.foldl (fun record field => record.insert field.1 field.2) record

/-- Drops a name. -/
def erase (record : Record) (name : String) : Record :=
  { record with
    toTable := (record.toTable.erase name).2
    coherent := record.coherent.erase name }

/-- A record with the same fields that has no parent and is not literal. -/
def detached (record : Record) : Record := ⟨record.toTable, record.coherent, none, false⟩

/-- The names in order. -/
def names (record : Record) : List String := record.fields.names

/-- The values in order of their names. -/
def values (record : Record) : List Atom := record.fields.map Prod.snd

/-- The number of fields. -/
def size (record : Record) : Nat := record.toTable.size

/-- No name occurs twice. -/
theorem distinct (record : Record) : record.fields.names.Nodup := record.coherent.distinct

theorem get?_eq (record : Record) (name : String) : record.get? name = record.fields.get? name :=
  record.coherent.get?_eq name

theorem contains_eq (record : Record) (name : String) :
    record.contains name = (record.get? name).isSome := by
  rw [get?_eq]
  exact record.coherent.contains_eq name

@[simp] theorem fields_insert (record : Record) (name : String) (value : Atom) :
    (record.insert name value).fields = record.fields.put name value :=
  record.coherent.fields_insert name value

/-- Reading back a name that was just stored gives the value. -/
theorem get?_insert_self (record : Record) (name : String) (value : Atom) :
    (record.insert name value).get? name = some value := by
  rw [get?_eq, fields_insert, Fields.get?_put_self]

/-- Storing under one name leaves every other name alone. -/
theorem get?_insert_of_ne (record : Record) {name other : String} (value : Atom)
    (different : other ≠ name) : (record.insert name value).get? other = record.get? other := by
  rw [get?_eq, get?_eq, fields_insert, Fields.get?_put_of_ne _ value different]

@[simp] theorem fields_erase (record : Record) (name : String) :
    (record.erase name).fields = record.fields.drop name :=
  record.coherent.fields_erase name

@[simp] theorem parent_insertAll (record : Record) (fields : Fields) :
    (record.insertAll fields).parent = record.parent := by
  induction fields generalizing record with
  | nil => rfl
  | cons field fields ih => exact ih _

@[simp] theorem literal_insertAll (record : Record) (fields : Fields) :
    (record.insertAll fields).literal = record.literal := by
  induction fields generalizing record with
  | nil => rfl
  | cons field fields ih => exact ih _

/-- Storing under new names adds the fields at the end, in their order. -/
theorem fields_insertAll (record : Record) {fields : Fields}
    (distinct : (record.fields ++ fields).names.Nodup) :
    (record.insertAll fields).fields = record.fields ++ fields := by
  induction fields generalizing record with
  | nil => simp [insertAll]
  | cons field fields ih =>
      obtain ⟨name, value⟩ := field
      have absent : name ∉ record.fields.names := by
        simp only [Fields.names, List.map_append, List.map_cons, List.nodup_append] at distinct
        exact fun mem => distinct.2.2 name mem name (by simp) rfl
      have stored : (record.insert name value).fields = record.fields ++ [(name, value)] :=
        (record.fields_insert name value).trans (Fields.put_of_not_mem value absent)
      have step := ih (record.insert name value) (by rw [stored]; simpa using distinct)
      rw [stored, List.append_assoc] at step
      exact step

end Record

end RecordLisp
