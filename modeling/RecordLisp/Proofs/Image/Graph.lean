import Mathlib.Data.List.Nodup
import RecordLisp.Proofs.Image.Numbering
import RecordLisp.Proofs.Source.RoundTrip

/-!
# What an image holds

The objects that a record leads to through values, parents and scopes of functions are `Saved`.
`Savable` collects what has to hold of them for an image to exist and to be read back. The search
behind an image numbers exactly the saved objects, each once, and the record itself comes first.
-/

namespace RecordLisp

/-- Whether a leaf without a modifier can be written as an expression. -/
def Leaf.isSavable : Leaf → Bool
  | .nil | .integer _ | .record _ | .function _ => true
  | .decimal value => value.isFinite
  | .string text => !Text.holdsQuote text
  | .token name => lexesAsToken name || !Text.holdsQuote name

mutual

/-- Whether a value is built without modifiers from leaves and lists that can be written. -/
def Atom.isSavable : Atom → Bool
  | .leaf modifier value => modifier == .plain && value.isSavable
  | .list modifier items => modifier == .plain && Atom.areSavable items
  | .member _ _ _ => false

/-- Whether some values can be written. -/
def Atom.areSavable : List Atom → Bool
  | [] => true
  | item :: items => item.isSavable && Atom.areSavable items

end

namespace Atom

/-- Whether an atom is a number. -/
def isNumber : Atom → Bool
  | .leaf _ (.integer _) | .leaf _ (.decimal _) => true
  | _ => false

mutual

/-- Whether modifiers stand where source text can have them, and chains can be spelled: they lean
left, no field is a number or marked to be expanded, and a modifier in front of a chain goes to its
first segment. -/
def isWellMarked : Atom → Bool
  | .leaf modifier value => modifier == .plain || takesModifier (.leaf modifier value)
  | .list _ items => areWellMarked items
  | .member modifier target field =>
      target.isWellMarked && target.modifier == .plain &&
      field.isWellMarked && !field.isMember && !field.isNumber && field.modifier != .expand &&
      (modifier == .plain || target.leftmost.takesModifier)

/-- Whether the items of a list are well marked. -/
def areWellMarked : List Atom → Bool
  | [] => true
  | item :: items => item.isWellMarked && areWellMarked items

end

mutual

/-- Whether no member expression stands in an atom. -/
def isChainless : Atom → Bool
  | .leaf _ _ => true
  | .list _ items => areChainless items
  | .member _ _ _ => false

/-- Whether no member expression stands in the items of a list. -/
def areChainless : List Atom → Bool
  | [] => true
  | item :: items => item.isChainless && areChainless items

end

mutual

/-- Savable values have no marks and no chains. -/
theorem isWellMarked_of_isSavable : ∀ atom : Atom, atom.isSavable = true →
    atom.isChainless = true ∧ atom.isWellMarked = true
  | .leaf modifier value, savable => by
      simp only [isSavable, Bool.and_eq_true] at savable
      rw [isWellMarked, savable.1]
      exact ⟨rfl, rfl⟩
  | .list _ items, savable =>
      areWellMarked_of_areSavable items (Bool.and_eq_true_iff.mp savable).2
  | .member _ _ _, savable => by cases savable

theorem areWellMarked_of_areSavable : ∀ items : List Atom, areSavable items = true →
    areChainless items = true ∧ areWellMarked items = true
  | [], _ => ⟨rfl, rfl⟩
  | item :: items, savable => by
      obtain ⟨savable, savableAll⟩ := Bool.and_eq_true_iff.mp savable
      obtain ⟨chainless, marked⟩ := isWellMarked_of_isSavable item savable
      obtain ⟨chainlessAll, markedAll⟩ := areWellMarked_of_areSavable items savableAll
      rw [areChainless, areWellMarked, chainless, marked, chainlessAll, markedAll]
      exact ⟨rfl, rfl⟩

end

mutual

/-- In a value without modifiers nothing is kept from being searched. -/
theorem handles_of_isSavable (inert : Modifier → Bool) (searched : inert .plain = false) :
    ∀ atom : Atom, atom.isSavable = true → atom.handles inert = atom.handles fun _ => false
  | .leaf _ _, _ => rfl
  | .list modifier items, savable => by
      simp only [isSavable, Bool.and_eq_true, beq_iff_eq] at savable
      simp only [handles, savable.1, searched, Bool.false_eq_true, if_false]
      exact handlesOfList_of_areSavable inert searched items savable.2
  | .member _ _ _, savable => by cases savable

theorem handlesOfList_of_areSavable (inert : Modifier → Bool) (searched : inert .plain = false) :
    ∀ items : List Atom, areSavable items = true →
      handlesOfList inert items = handlesOfList (fun _ => false) items
  | [], _ => rfl
  | item :: items, savable => by
      simp only [areSavable, Bool.and_eq_true] at savable
      simp only [handlesOfList, handles_of_isSavable inert searched item savable.1,
        handlesOfList_of_areSavable inert searched items savable.2]

end

end Atom

namespace Heap

/-- What a record leads to through values, parents and scopes of functions. -/
inductive Saved (heap : Heap) (root : RecordId) : Handle → Prop where
  | root : Saved heap root (.record root)
  | value {id : RecordId} {name : String} {value : Atom} {handle : Handle} :
      Saved heap root (.record id) → (name, value) ∈ (heap.record id).fields →
      handle ∈ (value.handles fun _ => false) → Saved heap root handle
  | parent {id parent : RecordId} :
      Saved heap root (.record id) → (heap.record id).parent = some parent →
      Saved heap root (.record parent)
  | scope {id : FunctionId} :
      Saved heap root (.function id) → Saved heap root (.record (heap.closure id).scope)

/-- Everything that a record leads to stands in the heap and can be written and read back: the
records have writable names and values and are not literal, and the functions have formals that are
tokens and a printable body. There are fewer objects than integers from zero on. -/
structure Savable (heap : Heap) (root : RecordId) : Prop where
  hasSlot : ∀ handle, heap.Saved root handle → heap.HasSlot handle
  notLiteral : ∀ id, heap.Saved root (.record id) → (heap.record id).literal = false
  fields : ∀ id, heap.Saved root (.record id) → ∀ name value,
    (name, value) ∈ (heap.record id).fields →
      (lexesAsToken name = true ∨ Text.holdsQuote name = false) ∧ value.isSavable = true
  formals : ∀ id, heap.Saved root (.function id) → ∀ param ∈ (heap.closure id).signature.params,
    lexesAsToken param.tokenText = true
  body : ∀ id, heap.Saved root (.function id) → heap.Printable (heap.closure id).body
  notExpanded : ∀ id, heap.Saved root (.function id) →
    (heap.closure id).body.modifier ≠ .expand
  few : ∀ handles : List Handle, handles.Nodup → (∀ handle ∈ handles, heap.Saved root handle) →
    handles.length < 2147483648

mutual

/-- All objects in an atom that unfolds are literal records of its tree. -/
theorem Unfolds.literal_of_mem_handles {heap : Heap} {atom : Atom} {tree : Tree}
    {ids : List RecordId} (inert : Modifier → Bool) :
    heap.Unfolds atom tree ids → ∀ handle ∈ atom.handles inert,
      ∃ id ∈ ids, handle = .record id ∧ (heap.record id).literal = true
  | .leaf noHandle => by simp [Atom.handles, noHandle]
  | .list items => by
      intro handle mem
      simp only [Atom.handles] at mem
      split at mem
      · cases mem
      · exact items.literal_of_mem_handles inert handle mem
  | .member target field => by
      intro handle mem
      rcases List.mem_append.mp mem with left | right
      · obtain ⟨id, inside, literal⟩ := target.literal_of_mem_handles inert handle left
        exact ⟨id, List.mem_append_left _ inside, literal⟩
      · obtain ⟨id, inside, literal⟩ := field.literal_of_mem_handles inert handle right
        exact ⟨id, List.mem_append_right _ inside, literal⟩
  | .record literal _ _ => by
      intro handle mem
      simp only [Atom.handles, Leaf.handle?, Option.toList_some, List.mem_singleton] at mem
      exact ⟨_, List.mem_cons_self, mem, literal⟩

theorem UnfoldsItems.literal_of_mem_handles {heap : Heap} {items : List Atom} {trees : List Tree}
    {ids : List RecordId} (inert : Modifier → Bool) :
    heap.UnfoldsItems items trees ids → ∀ handle ∈ Atom.handlesOfList inert items,
      ∃ id ∈ ids, handle = .record id ∧ (heap.record id).literal = true
  | .nil => by simp [Atom.handlesOfList]
  | .cons item items => by
      intro handle mem
      rcases List.mem_append.mp mem with left | right
      · obtain ⟨id, inside, literal⟩ := item.literal_of_mem_handles inert handle left
        exact ⟨id, List.mem_append_left _ inside, literal⟩
      · obtain ⟨id, inside, literal⟩ := items.literal_of_mem_handles inert handle right
        exact ⟨id, List.mem_append_right _ inside, literal⟩

theorem UnfoldsFields.literal_of_mem_values {heap : Heap} {fields : Fields}
    {trees : List (String × Tree)} {ids : List RecordId} (inert : Modifier → Bool) :
    heap.UnfoldsFields fields trees ids →
    ∀ handle ∈ (fields.map Prod.snd).flatMap (Atom.handles inert),
      ∃ id ∈ ids, handle = .record id ∧ (heap.record id).literal = true
  | .nil => by simp
  | .cons value fields => by
      intro handle mem
      rw [List.map_cons, List.flatMap_cons] at mem
      rcases List.mem_append.mp mem with left | right
      · obtain ⟨id, inside, literal⟩ := value.literal_of_mem_handles inert handle left
        exact ⟨id, List.mem_append_left _ inside, literal⟩
      · obtain ⟨id, inside, literal⟩ := fields.literal_of_mem_values inert handle right
        exact ⟨id, List.mem_append_right _ inside, literal⟩

end

/-- Whether some records refer to one another only. -/
def Closed (heap : Heap) (ids : List RecordId) : Prop :=
  ∀ id ∈ ids, ∀ next ∈ heap.references (.record id), ∃ inner ∈ ids, next = .record inner

theorem Closed.append {heap : Heap} {ids others : List RecordId} (closed : heap.Closed ids)
    (closedOthers : heap.Closed others) : heap.Closed (ids ++ others) := by
  intro id mem next edge
  rcases List.mem_append.mp mem with left | right
  · obtain ⟨inner, inside, same⟩ := closed id left next edge
    exact ⟨inner, List.mem_append_left _ inside, same⟩
  · obtain ⟨inner, inside, same⟩ := closedOthers id right next edge
    exact ⟨inner, List.mem_append_right _ inside, same⟩

mutual

/-- The literal records of a tree refer to one another only. -/
theorem Unfolds.closed {heap : Heap} {atom : Atom} {tree : Tree} {ids : List RecordId} :
    heap.Unfolds atom tree ids → heap.Closed ids
  | .leaf _ => nofun
  | .list items => items.closed
  | .member target field => target.closed.append field.closed
  | .record _ orphan fields => by
      intro id mem next edge
      rcases List.mem_cons.mp mem with rfl | inner
      · rw [references, orphan] at edge
        obtain ⟨inner, inside, same, _⟩ := fields.literal_of_mem_values _ next edge
        exact ⟨inner, List.mem_cons_of_mem _ inside, same⟩
      · obtain ⟨inner, inside, same⟩ := fields.closed id inner next edge
        exact ⟨inner, List.mem_cons_of_mem _ inside, same⟩

theorem UnfoldsItems.closed {heap : Heap} {items : List Atom} {trees : List Tree}
    {ids : List RecordId} : heap.UnfoldsItems items trees ids → heap.Closed ids
  | .nil => nofun
  | .cons item items => item.closed.append items.closed

theorem UnfoldsFields.closed {heap : Heap} {fields : Fields} {trees : List (String × Tree)}
    {ids : List RecordId} : heap.UnfoldsFields fields trees ids → heap.Closed ids
  | .nil => nofun
  | .cons value fields => value.closed.append fields.closed

end

variable {heap : Heap} {root : RecordId}

theorem Savable.isNumbered (savable : heap.Savable root) {handle : Handle}
    (saved : heap.Saved root handle) : heap.isNumbered handle = true := by
  cases handle with
  | record id => simp [Heap.isNumbered, savable.notLiteral id saved]
  | function id => rfl

/-- The search behind an image never leaves what is saved. -/
theorem Savable.saved_of_mem_savedReferences (savable : heap.Savable root) {handle next : Handle}
    (saved : heap.Saved root handle) (edge : next ∈ heap.savedReferences handle) :
    heap.Saved root next := by
  obtain ⟨edge, numbered⟩ := List.mem_filter.mp edge
  cases handle with
  | record id =>
      rcases List.mem_append.mp edge with inValues | isParent
      · obtain ⟨value, isValue, mem⟩ := List.mem_flatMap.mp inValues
        obtain ⟨⟨name, _⟩, field, rfl⟩ := List.mem_map.mp isValue
        have plain := (savable.fields id saved _ _ field).2
        rw [Atom.handles_of_isSavable Modifier.isQuote rfl _ plain] at mem
        exact .value saved field mem
      · cases hasParent : (heap.record id).parent with
        | none => simp [hasParent] at isParent
        | some parent =>
            simp only [hasParent, Option.map_some, Option.toList_some,
              List.mem_singleton] at isParent
            cases isParent
            exact .parent saved hasParent
  | function id =>
      rcases List.mem_cons.mp edge with rfl | inBody
      · exact .scope saved
      · obtain ⟨tree, ids, unfolds, _⟩ := savable.body id saved
        obtain ⟨literalId, _, rfl, literal⟩ := unfolds.literal_of_mem_handles _ next inBody
        simp [Heap.isNumbered, literal] at numbered

/-- The search behind an image follows exactly the steps that lead from saved objects to others. -/
theorem reaches_savedReferences_iff (savable : heap.Savable root) (handle : Handle) :
    Reaches heap.savedReferences [.record root] handle ↔ heap.Saved root handle := by
  constructor
  · apply Reaches.closed
    · intro other mem
      cases List.mem_singleton.mp mem
      exact .root
    · exact fun other saved next edge => savable.saved_of_mem_savedReferences saved edge
  · intro saved
    induction saved with
    | root => exact .root (List.mem_singleton_self _)
    | @value id name value handle saved field mem ih =>
        apply Reaches.step ih
        refine List.mem_filter.mpr ⟨List.mem_append_left _ (List.mem_flatMap.mpr ⟨value, ?_, ?_⟩),
          savable.isNumbered (.value saved field mem)⟩
        · exact List.mem_map.mpr ⟨_, field, rfl⟩
        · rw [Atom.handles_of_isSavable Modifier.isQuote rfl _
            (savable.fields id saved _ _ field).2]
          exact mem
    | parent saved isParent ih =>
        apply Reaches.step ih
        refine List.mem_filter.mpr
          ⟨List.mem_append_right _ ?_, savable.isNumbered (.parent saved isParent)⟩
        simp [isParent]
    | scope saved ih =>
        apply Reaches.step ih
        exact List.mem_filter.mpr ⟨List.mem_cons_self, savable.isNumbered (.scope saved)⟩

theorem Savable.hasSlot_of_reaches (savable : heap.Savable root) (handle : Handle)
    (reaches : Reaches heap.savedReferences [.record root] handle) : heap.HasSlot handle :=
  savable.hasSlot handle ((reaches_savedReferences_iff savable handle).mp reaches)

end Heap

namespace Image

variable {heap : Heap} {root : RecordId}

/-- The numbered objects are the saved ones. -/
theorem numbers_iff (savable : heap.Savable root) (handle : Handle) :
    (ofRoot heap root).Numbers handle ↔ heap.Saved root handle :=
  (Heap.numbers_iff_reaches savable.hasSlot_of_reaches).trans
    (Heap.reaches_savedReferences_iff savable handle)

theorem mem_records_iff (savable : heap.Savable root) (id : RecordId) :
    id ∈ (ofRoot heap root).records ↔ heap.Saved root (.record id) :=
  numbers_iff savable (.record id)

theorem mem_functions_iff (savable : heap.Savable root) (id : FunctionId) :
    id ∈ (ofRoot heap root).functions ↔ heap.Saved root (.function id) :=
  numbers_iff savable (.function id)

/-- No object has two numbers. -/
theorem nodup (image : Image) : image.records.Nodup ∧ image.functions.Nodup :=
  ⟨image.coherent.records.nodup, image.coherent.functions.nodup⟩

/-- The record itself has number zero. -/
theorem head?_records (heap : Heap) (root : RecordId) :
    (ofRoot heap root).records.head? = some root :=
  heap.head?_records_numbering root

theorem length_records_lt (savable : heap.Savable root) :
    (ofRoot heap root).records.length < 2147483648 := by
  have few := savable.few ((ofRoot heap root).records.map .record)
    ((ofRoot heap root).nodup.1.map fun _ _ same => by cases same; rfl) (by
      intro handle mem
      obtain ⟨id, isRecord, rfl⟩ := List.mem_map.mp mem
      exact (mem_records_iff savable id).mp isRecord)
  simpa using few

theorem length_functions_lt (savable : heap.Savable root) :
    (ofRoot heap root).functions.length < 2147483648 := by
  have few := savable.few ((ofRoot heap root).functions.map .function)
    ((ofRoot heap root).nodup.2.map fun _ _ same => by cases same; rfl) (by
      intro handle mem
      obtain ⟨id, isFunction, rfl⟩ := List.mem_map.mp mem
      exact (mem_functions_iff savable id).mp isFunction)
  simpa using few

end Image

end RecordLisp
