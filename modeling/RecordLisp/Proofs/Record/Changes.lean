import RecordLisp.Record

/-!
# Changes of a record

Storing and dropping fields is compared with the same changes of a plain list of pairs, in which a
name that is stored again keeps its place, dropping a name keeps the order of the others, and a name
that is stored anew comes last. The table of a record never searches its fields. It agrees with the
list because no change lets its index go wrong: a name that is dropped is forgotten, and the names
behind it move up.
-/

namespace RecordLisp

/-- A change of the fields of a record. -/
inductive Change where
  | insert (name : String) (value : Atom)
  | erase (name : String)

namespace Change

/-- The name that a change is about. -/
def name : Change → String
  | .insert name _ | .erase name => name

/-- What a change makes of a list of pairs. -/
def applyTo (fields : Fields) : Change → Fields
  | .insert name value =>
      if name ∈ fields.names then
        fields.map fun field => (field.1, if field.1 = name then value else field.2)
      else fields ++ [(name, value)]
  | .erase name => fields.filter fun field => field.1 != name

end Change

/-! ## Changes of a list of pairs -/

namespace Fields

/-- Changes a list of pairs several times. Each change gives the value that stood under its name
before. -/
def replay (fields : Fields) : List Change → List (Option Atom) × Fields
  | [] => ([], fields)
  | change :: changes =>
      let (returned, last) := replay (change.applyTo fields) changes
      (fields.lookup change.name :: returned, last)

theorem get?_eq_lookup (fields : Fields) (name : String) :
    fields.get? name = fields.lookup name := by
  induction fields with
  | nil => rfl
  | cons field rest ih =>
      obtain ⟨key, value⟩ := field
      rw [get?, List.lookup_cons, ih]
      by_cases same : key = name
      · rw [if_pos same, beq_iff_eq.mpr same.symm]
      · rw [if_neg same, beq_eq_false_iff_ne.mpr (Ne.symm same)]

theorem put_eq_applyTo {fields : Fields} (distinct : fields.names.Nodup) (name : String)
    (value : Atom) :
    fields.put name value = (Change.insert name value).applyTo fields := by
  rw [Change.applyTo]
  induction fields with
  | nil => rfl
  | cons field rest ih =>
      obtain ⟨key, old⟩ := field
      obtain ⟨absent, distinct⟩ := List.nodup_cons.mp distinct
      rw [put, ih distinct]
      by_cases here : key = name
      · subst here
        -- The name does not stand behind its place, so nothing else is changed.
        have others :
            ∀ field ∈ rest, (field.1, if field.1 = key then value else field.2) = field := by
          rintro ⟨other, old⟩ mem
          rw [if_neg]
          rintro rfl
          exact absent (List.mem_map.mpr ⟨_, mem, rfl⟩)
        have first : key ∈ names ((key, old) :: rest) := List.mem_cons_self
        rw [if_pos rfl, if_pos first, List.map_cons, List.map_congr_left others, List.map_id']
        simp only [if_pos]
      · have behind : name ∈ names ((key, old) :: rest) ↔ name ∈ names rest := by
          rw [names_cons, List.mem_cons, or_iff_right (Ne.symm here)]
        simp only [if_neg here, behind, List.map_cons, List.cons_append]
        split <;> rfl

theorem drop_eq_applyTo {fields : Fields} (distinct : fields.names.Nodup) (name : String) :
    fields.drop name = (Change.erase name).applyTo fields := by
  rw [Change.applyTo]
  induction fields with
  | nil => rfl
  | cons field rest ih =>
      obtain ⟨key, old⟩ := field
      obtain ⟨absent, distinct⟩ := List.nodup_cons.mp distinct
      by_cases here : key = name
      · subst here
        have others : ∀ field ∈ rest, (field.1 != key) = true := by
          intro field mem
          rw [bne_iff_ne]
          intro same
          exact absent (List.mem_map.mpr ⟨field, mem, same⟩)
        rw [drop, if_pos rfl, List.filter_cons_of_neg (by simp), List.filter_eq_self.mpr others]
      · rw [drop, if_neg here, List.filter_cons_of_pos (by simpa using here), ih distinct]

end Fields

/-! ## Changes of a table -/

namespace Table

/-- Changes a table, and gives the value that stood under the name before. -/
def change (table : Table) : Change → Option Atom × Table
  | .insert name value => table.insert name value
  | .erase name => table.erase name

/-- Changes a table several times, and gives what each change gives. -/
def run (table : Table) : List Change → List (Option Atom) × Table
  | [] => ([], table)
  | change :: changes =>
      let (old, next) := table.change change
      let (returned, last) := next.run changes
      (old :: returned, last)

/-- Whether a table shows the pairs of a list in their order, and its index the place of each name
and nothing else. -/
structure Shows (table : Table) (fields : Fields) : Prop where
  inOrder : table.fields = fields
  once : table.fields.names.Nodup
  places : ∀ name place, table.index.find? name = some place ↔
    table.fields.nameAt? place = some name
  inRange : ∀ name place, table.index.find? name = some place → place < table.fields.length
  get? : ∀ name, table.get? name = fields.lookup name
  contains : ∀ name, table.contains name = (fields.lookup name).isSome
  size : table.size = fields.length

variable {table : Table}

theorem Coherent.shows (coherent : table.Coherent) : table.Shows table.fields where
  inOrder := rfl
  once := coherent.distinct
  places := coherent
  inRange _ _ found := coherent.lt_length found
  get? name := (coherent.get?_eq name).trans (Fields.get?_eq_lookup table.fields name)
  contains name := by rw [coherent.contains_eq, Fields.get?_eq_lookup]
  size := rfl

theorem Coherent.change (coherent : table.Coherent) (change : Change) :
    (table.change change).2.Coherent :=
  match change with
  | .insert name value => coherent.insert name value
  | .erase name => coherent.erase name

/-- A change gives the value under its name and does with the fields what it does with a list. -/
theorem Coherent.change_eq (coherent : table.Coherent) (change : Change) :
    (table.change change).1 = table.fields.lookup change.name ∧
      (table.change change).2.fields = change.applyTo table.fields := by
  cases change with
  | insert name value =>
      constructor
      · exact (coherent.fst_insert name value).trans (Fields.get?_eq_lookup table.fields name)
      · exact (coherent.fields_insert name value).trans
          (Fields.put_eq_applyTo coherent.distinct name value)
  | erase name =>
      constructor
      · exact (coherent.fst_erase name).trans (Fields.get?_eq_lookup table.fields name)
      · exact (coherent.fields_erase name).trans (Fields.drop_eq_applyTo coherent.distinct name)

/-- Changes of a coherent table do and give what the same changes of its fields do and give. -/
theorem Coherent.run (coherent : table.Coherent) (changes : List Change) :
    (table.run changes).1 = (table.fields.replay changes).1 ∧
      (table.run changes).2.Shows (table.fields.replay changes).2 := by
  induction changes generalizing table with
  | nil => exact ⟨rfl, coherent.shows⟩
  | cons change changes ih =>
      obtain ⟨returned, stored⟩ := coherent.change_eq change
      obtain ⟨sameReturned, shows⟩ := ih (coherent.change change)
      rw [stored] at sameReturned shows
      exact ⟨congr (congrArg List.cons returned) sameReturned, shows⟩

end Table

/-! ## Changes of a record -/

namespace Record

/-- Changes the fields of a record. -/
def change (record : Record) : Change → Record
  | .insert name value => record.insert name value
  | .erase name => record.erase name

theorem toTable_foldl_change (record : Record) (changes : List Change) :
    (changes.foldl change record).toTable = (record.toTable.run changes).2 := by
  induction changes generalizing record with
  | nil => rfl
  | cons change changes ih =>
      cases change with
      | insert name value => exact ih (record.insert name value)
      | erase name => exact ih (record.erase name)

/-- Whatever is stored in a record and dropped from it, in any order, the record shows the same
fields as a plain list of pairs after the same changes, and each change gives the value that the
list has under its name. No name occurs twice, and the index has the place of each name and nothing
else. -/
theorem changes_keep_order (record : Record) (changes : List Change) :
    let after := record.toTable.run changes
    let reference := record.fields.replay changes
    after.1 = reference.1 ∧ after.2.Shows reference.2 ∧
      (changes.foldl change record).toTable = after.2 := by
  intro after reference
  obtain ⟨returned, shows⟩ := record.coherent.run changes
  exact ⟨returned, shows, record.toTable_foldl_change changes⟩

/-- A name that is dropped and stored again comes last, and the index knows the place of the name
that moved up. -/
example :
    let record :=
      [Change.insert "x" .nil, .insert "y" .nil, .erase "x", .insert "x" .nil].foldl change .empty
    record.names = ["y", "x"] ∧ record.index.find? "y" = some 0 ∧
    record.index.find? "x" = some 1 := by
  decide

end Record

end RecordLisp
