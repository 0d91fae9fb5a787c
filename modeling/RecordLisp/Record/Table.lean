import RecordLisp.Index
import RecordLisp.Record.Fields

/-!
# Tables of fields

A table keeps fields in their order together with an index that knows the place of every name, so
that no operation has to search the fields. Dropping a field moves the fields behind it, and their
places in the index with them. A table is coherent when its index has the place of each name and
nothing else. The operations keep tables coherent, and on a coherent table they do what the
operations of the same names do on its fields.
-/

namespace RecordLisp

/-- Fields in their order and the places of their names. -/
structure Table where
  fields : Fields
  index : Index String

namespace Table

/-- A table without fields. -/
def empty : Table := ⟨[], []⟩

/-- The value under a name. -/
def get? (table : Table) (name : String) : Option Atom :=
  (table.index.find? name).bind table.fields.valueAt?

/-- Whether there is a name. -/
def contains (table : Table) (name : String) : Bool := (table.index.find? name).isSome

/-- Stores a value under a name, and gives the value that it takes the place of. -/
def insert (table : Table) (name : String) (value : Atom) : Option Atom × Table :=
  match table.index.find? name with
  | some place =>
      (table.fields.valueAt? place, { table with fields := table.fields.putAt place value })
  | none =>
      (none, ⟨table.fields ++ [(name, value)], table.index.note name table.fields.length⟩)

/-- Drops a name, and gives the value that it had. -/
def erase (table : Table) (name : String) : Option Atom × Table :=
  match table.index.find? name with
  | some place =>
      (table.fields.valueAt? place,
        ⟨table.fields.eraseIdx place, (table.index.forget name).closeGap place⟩)
  | none => (none, table)

/-- The number of fields. -/
def size (table : Table) : Nat := table.fields.length

/-- Whether the index has the place of each name and nothing else. -/
def Coherent (table : Table) : Prop :=
  ∀ name place, table.index.find? name = some place ↔ table.fields.nameAt? place = some name

theorem coherent_iff_locates {table : Table} :
    table.Coherent ↔ table.index.Locates table.fields.names := by
  simp only [Coherent, Index.Locates, Fields.nameAt?_eq]

theorem coherent_empty : empty.Coherent := coherent_iff_locates.mpr Index.locates_nil

namespace Coherent

variable {table : Table} {name : String}

theorem locates (coherent : table.Coherent) : table.index.Locates table.fields.names :=
  coherent_iff_locates.mp coherent

/-- A place that the index gives is one of the fields. -/
theorem lt_length (coherent : table.Coherent) {place : Nat}
    (found : table.index.find? name = some place) : place < table.fields.length :=
  Fields.lt_length_of_nameAt? ((coherent name place).mp found)

theorem distinct (coherent : table.Coherent) : table.fields.names.Nodup := coherent.locates.nodup

theorem not_mem_names (coherent : table.Coherent) (absent : table.index.find? name = none) :
    name ∉ table.fields.names :=
  coherent.locates.find?_eq_none_iff.mp absent

/-! ## What the operations do with the fields -/

theorem get?_eq (coherent : table.Coherent) (name : String) :
    table.get? name = table.fields.get? name := by
  unfold get?
  cases found : table.index.find? name with
  | none => exact (Fields.get?_eq_none_of_not_mem (coherent.not_mem_names found)).symm
  | some place =>
      exact (Fields.get?_eq_valueAt? coherent.distinct ((coherent name place).mp found)).symm

theorem contains_eq (coherent : table.Coherent) (name : String) :
    table.contains name = (table.fields.get? name).isSome := by
  rw [← coherent.get?_eq, get?, contains]
  cases found : table.index.find? name with
  | none => rfl
  | some place =>
      have inside := coherent.lt_length found
      rw [Option.bind_some, Fields.valueAt?, List.getElem?_eq_getElem inside]
      rfl

theorem fst_insert (coherent : table.Coherent) (name : String) (value : Atom) :
    (table.insert name value).1 = table.fields.get? name := by
  rw [← coherent.get?_eq, get?, insert]
  cases table.index.find? name <;> rfl

theorem fields_insert (coherent : table.Coherent) (name : String) (value : Atom) :
    (table.insert name value).2.fields = table.fields.put name value := by
  unfold insert
  cases found : table.index.find? name with
  | none => exact (Fields.put_of_not_mem value (coherent.not_mem_names found)).symm
  | some place => exact Fields.putAt_eq_put coherent.distinct ((coherent name place).mp found) value

theorem fst_erase (coherent : table.Coherent) (name : String) :
    (table.erase name).1 = table.fields.get? name := by
  rw [← coherent.get?_eq, get?, erase]
  cases table.index.find? name <;> rfl

theorem fields_erase (coherent : table.Coherent) (name : String) :
    (table.erase name).2.fields = table.fields.drop name := by
  unfold erase
  cases found : table.index.find? name with
  | none => exact (Fields.drop_of_not_mem (coherent.not_mem_names found)).symm
  | some place => exact Fields.eraseIdx_eq_drop coherent.distinct ((coherent name place).mp found)

/-! ## What the operations do with the index -/

/-- A new name stands behind all others, an old one keeps its place. -/
theorem insert (coherent : table.Coherent) (name : String) (value : Atom) :
    (table.insert name value).2.Coherent := by
  unfold Table.insert
  cases found : table.index.find? name with
  | some _ =>
      intro other place
      simpa only [Fields.nameAt?_putAt] using coherent other place
  | none =>
      have located := coherent.locates.note found
      rw [Fields.names, List.length_map] at located
      rw [coherent_iff_locates, Fields.names, List.map_append]
      exact located

/-- The names behind the one that is dropped move up by one place. -/
theorem erase (coherent : table.Coherent) (name : String) : (table.erase name).2.Coherent := by
  intro other place
  unfold Table.erase
  cases found : table.index.find? name with
  | none => exact coherent other place
  | some gone =>
      have stands := (coherent name gone).mp found
      simp only [Index.find?_closeGap, Index.find?_forget, Fields.nameAt?_eraseIdx,
        Option.map_eq_some_iff]
      have unique : ∀ place', table.fields.nameAt? place' = some other →
          (other = name ↔ place' = gone) := by
        intro place' here
        constructor
        · rintro rfl
          exact Option.some.inj (((coherent other place').mpr here).symm.trans found)
        · rintro rfl
          exact Option.some.inj (here.symm.trans stands)
      have known := coherent other
      grind [Index.movedUp]

end Coherent

end Table

end RecordLisp
