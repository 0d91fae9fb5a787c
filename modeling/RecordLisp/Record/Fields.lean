import RecordLisp.Atom.Basic

/-!
# Fields

Named atoms in the order in which the names were added, as a list of pairs. Storing under a name
that is present keeps its place; storing under a new one adds it at the end; dropping one keeps the
order of the others. A list in which no name occurs twice can also be read and changed by the places
of its names.
-/

namespace RecordLisp

/-- Named atoms in order. -/
abbrev Fields := List (String × Atom)

namespace Fields

/-- The names in order. -/
def names (fields : Fields) : List String := fields.map Prod.fst

/-- The first value under a name. -/
def get? (name : String) : Fields → Option Atom
  | [] => none
  | (key, value) :: rest => if key = name then some value else get? name rest

/-- Stores a value in place of the first under its name, or at the end. -/
def put (name : String) (value : Atom) : Fields → Fields
  | [] => [(name, value)]
  | (key, old) :: rest =>
      if key = name then (key, value) :: rest else (key, old) :: put name value rest

/-- Drops the first value under a name. -/
def drop (name : String) : Fields → Fields
  | [] => []
  | (key, old) :: rest => if key = name then rest else (key, old) :: drop name rest

/-- The name that stands at a place. -/
def nameAt? (fields : Fields) (place : Nat) : Option String := fields[place]?.map Prod.fst

/-- The value that stands at a place. -/
def valueAt? (fields : Fields) (place : Nat) : Option Atom := fields[place]?.map Prod.snd

/-- Stores a value at a place, under the name that stands there. -/
def putAt (fields : Fields) (place : Nat) (value : Atom) : Fields :=
  fields.modify place fun field => (field.1, value)

@[simp] theorem names_nil : names [] = [] := rfl

@[simp] theorem names_cons (name : String) (value : Atom) (fields : Fields) :
    names ((name, value) :: fields) = name :: fields.names := rfl

/-- A name has a value exactly when it is one of the names. -/
theorem isSome_get?_iff (fields : Fields) (name : String) :
    (get? name fields).isSome = true ↔ name ∈ fields.names := by
  induction fields with
  | nil => simp [get?]
  | cons field rest ih =>
      obtain ⟨key, value⟩ := field
      by_cases same : key = name
      · simp [get?, same]
      · have different : name ≠ key := fun equal => same equal.symm
        simp [get?, same, different, ih]

/-- Reading back a name that was just stored gives the value. -/
@[simp] theorem get?_put_self (fields : Fields) (name : String) (value : Atom) :
    get? name (put name value fields) = some value := by
  induction fields with
  | nil => simp [put, get?]
  | cons field rest ih =>
      obtain ⟨key, old⟩ := field
      by_cases same : key = name <;> simp [put, get?, same, ih]

/-- Storing under one name leaves every other name alone. -/
theorem get?_put_of_ne (fields : Fields) {name other : String} (value : Atom)
    (different : other ≠ name) : get? other (put name value fields) = get? other fields := by
  have distinct : name ≠ other := fun equal => different equal.symm
  induction fields with
  | nil => simp [put, get?, distinct]
  | cons field rest ih =>
      obtain ⟨key, old⟩ := field
      by_cases same : key = name
      · subst same
        simp [put, get?, distinct]
      · by_cases hit : key = other
        · subst hit
          simp [put, get?, same]
        · simp [put, get?, same, hit, ih]

/-- Storing under a name that is present keeps the names as they are. -/
theorem names_put_of_mem {fields : Fields} {name : String} (value : Atom)
    (present : name ∈ fields.names) : (put name value fields).names = fields.names := by
  induction fields with
  | nil => simp at present
  | cons field rest ih =>
      obtain ⟨key, old⟩ := field
      by_cases same : key = name
      · simp [put, same]
      · have later : name ∈ names rest := by
          rcases List.mem_cons.mp present with equal | later
          · exact absurd equal.symm same
          · exact later
        simp [put, same, ih later]

/-- Storing under a new name adds it at the end. -/
theorem put_of_not_mem {fields : Fields} {name : String} (value : Atom)
    (absent : name ∉ fields.names) : put name value fields = fields ++ [(name, value)] := by
  induction fields with
  | nil => rfl
  | cons field rest ih =>
      obtain ⟨key, old⟩ := field
      have absent' : name ≠ key ∧ name ∉ names rest := by simpa using absent
      have different : key ≠ name := fun equal => absent'.1 equal.symm
      simp [put, different, ih absent'.2]

theorem names_put_of_not_mem {fields : Fields} {name : String} (value : Atom)
    (absent : name ∉ fields.names) : (put name value fields).names = fields.names ++ [name] := by
  simp [put_of_not_mem value absent, names]

/-! ## Places of names -/

theorem nameAt?_eq (fields : Fields) (place : Nat) :
    fields.nameAt? place = fields.names[place]? := by
  rw [nameAt?, names, List.getElem?_map]

theorem lt_length_of_nameAt? {fields : Fields} {place : Nat} {name : String}
    (stands : fields.nameAt? place = some name) : place < fields.length := by
  obtain ⟨field, found, -⟩ := Option.map_eq_some_iff.mp stands
  exact (List.getElem?_eq_some_iff.mp found).1

theorem mem_names_iff {fields : Fields} {name : String} :
    name ∈ fields.names ↔ ∃ place, fields.nameAt? place = some name := by
  simp only [nameAt?_eq, List.mem_iff_getElem?]

@[simp] theorem nameAt?_putAt (fields : Fields) (place other : Nat) (value : Atom) :
    (fields.putAt place value).nameAt? other = fields.nameAt? other := by
  rw [nameAt?, putAt, List.getElem?_modify, nameAt?]
  cases fields[other]? with
  | none => rfl
  | some field =>
      rw [Option.map_eq_map, Option.map_some, Option.map_some]
      split <;> rfl

theorem nameAt?_eraseIdx (fields : Fields) (place other : Nat) :
    nameAt? (fields.eraseIdx place) other =
      if other < place then fields.nameAt? other else fields.nameAt? (other + 1) := by
  rw [nameAt?, List.getElem?_eraseIdx]
  split <;> rfl

section

variable {fields : Fields} {name : String} {place : Nat}

/-- A name that stands behind the first field is not the first name. -/
private theorem first_ne_of_nameAt? {key : String} {old : Atom}
    (distinct : (names ((key, old) :: fields)).Nodup) (stands : fields.nameAt? place = some name) :
    key ≠ name := by
  rintro rfl
  exact (List.nodup_cons.mp distinct).1 (mem_names_iff.mpr ⟨place, stands⟩)

/-- The value under a name is the one at its place. -/
theorem get?_eq_valueAt? (distinct : fields.names.Nodup)
    (stands : fields.nameAt? place = some name) :
    fields.get? name = fields.valueAt? place := by
  induction fields generalizing place with
  | nil => cases stands
  | cons field rest ih =>
      obtain ⟨key, old⟩ := field
      cases place with
      | zero =>
          obtain rfl : key = name := Option.some.inj stands
          simp [get?, valueAt?]
      | succ place =>
          have behind : nameAt? rest place = some name := stands
          have other := first_ne_of_nameAt? distinct behind
          rw [get?, if_neg other, ih (List.nodup_cons.mp distinct).2 behind]
          rfl

/-- Storing under a name is storing at its place. -/
theorem putAt_eq_put (distinct : fields.names.Nodup) (stands : fields.nameAt? place = some name)
    (value : Atom) : fields.putAt place value = fields.put name value := by
  induction fields generalizing place with
  | nil => cases stands
  | cons field rest ih =>
      obtain ⟨key, old⟩ := field
      cases place with
      | zero =>
          obtain rfl : key = name := Option.some.inj stands
          simp [put, putAt]
      | succ place =>
          have behind : nameAt? rest place = some name := stands
          have other := first_ne_of_nameAt? distinct behind
          rw [put, if_neg other, ← ih (List.nodup_cons.mp distinct).2 behind]
          rfl

/-- Dropping a name is erasing its place. -/
theorem eraseIdx_eq_drop (distinct : fields.names.Nodup)
    (stands : fields.nameAt? place = some name) :
    fields.eraseIdx place = fields.drop name := by
  induction fields generalizing place with
  | nil => cases stands
  | cons field rest ih =>
      obtain ⟨key, old⟩ := field
      cases place with
      | zero =>
          obtain rfl : key = name := Option.some.inj stands
          simp [drop]
      | succ place =>
          have behind : nameAt? rest place = some name := stands
          have other := first_ne_of_nameAt? distinct behind
          rw [drop, if_neg other, ← ih (List.nodup_cons.mp distinct).2 behind]
          rfl

end

/-- A name that is not there has no value. -/
theorem get?_eq_none_of_not_mem {fields : Fields} {name : String} (absent : name ∉ fields.names) :
    fields.get? name = none := by
  rw [← isSome_get?_iff] at absent
  simpa using absent

/-- Dropping a name that is not there changes nothing. -/
theorem drop_of_not_mem {fields : Fields} {name : String} (absent : name ∉ fields.names) :
    fields.drop name = fields := by
  induction fields with
  | nil => rfl
  | cons field rest ih =>
      obtain ⟨key, old⟩ := field
      have absent' : name ≠ key ∧ name ∉ names rest := by simpa using absent
      rw [drop, if_neg absent'.1.symm, ih absent'.2]

end Fields

end RecordLisp
