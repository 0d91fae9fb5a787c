/-!
# Indexes

An index knows the places of the keys of a list, so that no lookup has to search the list. It
locates the list when it has the place of each key and nothing else. No key then stands in the list
twice, and the index stays right when a new key is put at the end of the list and noted there.
-/

namespace RecordLisp

/-- The places of keys, in no order of its own. Of two places for a key the first counts. -/
abbrev Index (κ : Type) := List (κ × Nat)

namespace Index

variable {κ : Type} [DecidableEq κ]

/-- The place of a key. -/
def find? (index : Index κ) (key : κ) : Option Nat := index.lookup key

/-- Gives a key a place. -/
def note (index : Index κ) (key : κ) (place : Nat) : Index κ := (key, place) :: index

/-- Takes a key away. -/
def forget (index : Index κ) (key : κ) : Index κ := index.filter (·.1 != key)

/-- The place of an entry after the entry at another place is gone. -/
def movedUp (gone place : Nat) : Nat := if gone < place then place - 1 else place

/-- Moves up the places behind one that is gone. -/
def closeGap (index : Index κ) (gone : Nat) : Index κ :=
  index.map fun entry => (entry.1, movedUp gone entry.2)

theorem find?_cons (entry : κ × Nat) (index : Index κ) (key : κ) :
    find? (entry :: index) key = if key = entry.1 then some entry.2 else index.find? key := by
  obtain ⟨noted, place⟩ := entry
  rw [find?, List.lookup_cons]
  by_cases same : key = noted
  · rw [if_pos same, beq_iff_eq.mpr same]
  · rw [if_neg same, beq_eq_false_iff_ne.mpr same]
    rfl

theorem find?_note (index : Index κ) (key other : κ) (place : Nat) :
    (index.note key place).find? other = if other = key then some place else index.find? other :=
  find?_cons (key, place) index other

theorem find?_forget (index : Index κ) (key other : κ) :
    (index.forget key).find? other = if other = key then none else index.find? other := by
  induction index with
  | nil => simp [forget, find?]
  | cons entry index ih =>
      rw [find?_cons, forget, List.filter_cons]
      by_cases gone : entry.1 = key
      · rw [if_neg (by simp [gone])]
        refine ih.trans ?_
        by_cases same : other = key <;> simp [same, gone]
      · rw [if_pos (by simp [gone]), find?_cons]
        by_cases here : other = entry.1
        · simp [here, gone]
        · rw [if_neg here, if_neg here]
          exact ih

theorem find?_closeGap (index : Index κ) (gone : Nat) (key : κ) :
    (index.closeGap gone).find? key = (index.find? key).map (movedUp gone) := by
  induction index with
  | nil => rfl
  | cons entry index ih =>
      rw [closeGap, List.map_cons, find?_cons, find?_cons]
      by_cases here : key = entry.1
      · simp [here]
      · rw [if_neg here, if_neg here]
        exact ih

/-! ## Indexes of lists -/

/-- Whether an index has the place of each key of a list and nothing else. -/
def Locates (index : Index κ) (keys : List κ) : Prop :=
  ∀ key place, index.find? key = some place ↔ keys[place]? = some key

theorem locates_nil : Locates ([] : Index κ) [] := by
  intro key place
  simp [find?]

namespace Locates

variable {index : Index κ} {keys : List κ} {key : κ} {place : Nat}

/-- A place that the index gives is one of the list. -/
theorem lt_length (located : index.Locates keys) (found : index.find? key = some place) :
    place < keys.length :=
  (List.getElem?_eq_some_iff.mp ((located key place).mp found)).1

/-- The keys in the index are those of the list. -/
theorem isSome_find?_iff (located : index.Locates keys) :
    (index.find? key).isSome = true ↔ key ∈ keys := by
  rw [Option.isSome_iff_exists, List.mem_iff_getElem?]
  exact exists_congr fun place => located key place

theorem find?_eq_none_iff (located : index.Locates keys) : index.find? key = none ↔ key ∉ keys := by
  rw [← located.isSome_find?_iff, Option.not_isSome_iff_eq_none]

/-- A key that has one place only stands in the list once. -/
theorem nodup (located : index.Locates keys) : keys.Nodup := by
  refine List.pairwise_iff_getElem.mpr fun place other inside inside' before same => ?_
  have here := (located keys[place] place).mpr (List.getElem?_eq_getElem inside)
  have there := (located keys[other] other).mpr (List.getElem?_eq_getElem inside')
  rw [same, there] at here
  exact Nat.ne_of_gt before (Option.some.inj here)

/-- A new key stands behind all others. -/
theorem note (located : index.Locates keys) (new : index.find? key = none) :
    (index.note key keys.length).Locates (keys ++ [key]) := by
  have absent := located.find?_eq_none_iff.mp new
  intro other place
  rw [find?_note]
  by_cases here : other = key
  · subst here
    rw [if_pos rfl, Option.some.injEq]
    constructor
    · rintro rfl
      exact List.getElem?_concat_length
    · intro stands
      have notOld : keys[place]? ≠ some other := fun old => absent (List.mem_of_getElem? old)
      grind
  · rw [if_neg here, located other place]
    grind

end Locates

end Index

end RecordLisp
