import RecordLisp.Record

/-!
# What records hold after a change

Storing under names adds the stored values to those of a record and no others, and dropping a name
adds none. A value under a name is one of the values.
-/

namespace RecordLisp

namespace Fields

/-- A value stored under a name is the only new one. -/
theorem mem_of_mem_put {fields : Fields} {name : String} {value : Atom} {field : String × Atom}
    (mem : field ∈ fields.put name value) : field = (name, value) ∨ field ∈ fields := by
  induction fields with
  | nil => exact .inl (List.mem_singleton.mp mem)
  | cons first rest ih =>
      obtain ⟨key, old⟩ := first
      rw [put] at mem
      split at mem
      · rename_i same
        subst same
        exact (List.mem_cons.mp mem).imp_right (List.mem_cons_of_mem _)
      · obtain rfl | later := List.mem_cons.mp mem
        · exact .inr List.mem_cons_self
        · exact (ih later).imp_right (List.mem_cons_of_mem _)

theorem drop_sublist (fields : Fields) (name : String) : (fields.drop name).Sublist fields := by
  induction fields with
  | nil => exact .slnil
  | cons first rest ih =>
      obtain ⟨key, old⟩ := first
      rw [drop]
      split
      · exact List.sublist_cons_self _ _
      · exact ih.cons_cons _

theorem mem_of_get? {fields : Fields} {name : String} {value : Atom}
    (found : fields.get? name = some value) : (name, value) ∈ fields := by
  induction fields with
  | nil => cases found
  | cons first rest ih =>
      obtain ⟨key, old⟩ := first
      rw [get?] at found
      split at found
      · rename_i same
        cases found
        cases same
        exact List.mem_cons_self
      · exact List.mem_cons_of_mem _ (ih found)

end Fields

namespace Record

variable {record : Record} {name : String} {value held : Atom}

theorem mem_values_insert (mem : held ∈ (record.insert name value).values) :
    held = value ∨ held ∈ record.values := by
  obtain ⟨field, inside, rfl⟩ := List.mem_map.mp mem
  rw [fields_insert] at inside
  exact (Fields.mem_of_mem_put inside).imp (congrArg Prod.snd) List.mem_map_of_mem

theorem mem_values_insertAll {fields : Fields} (mem : held ∈ (record.insertAll fields).values) :
    held ∈ record.values ∨ held ∈ fields.map Prod.snd := by
  induction fields generalizing record with
  | nil => exact .inl mem
  | cons field fields ih =>
      rw [List.map_cons, List.mem_cons]
      rcases ih mem with before | later
      · exact (mem_values_insert before).elim (fun same => .inr (.inl same)) .inl
      · exact .inr (.inr later)

theorem mem_values_erase (mem : held ∈ (record.erase name).values) : held ∈ record.values := by
  rw [values, fields_erase] at mem
  exact ((Fields.drop_sublist record.fields name).map Prod.snd).subset mem

theorem mem_values_of_get? (found : record.get? name = some value) : value ∈ record.values := by
  rw [get?_eq] at found
  exact List.mem_map.mpr ⟨_, Fields.mem_of_get? found, rfl⟩

end Record

end RecordLisp
