import Mathlib.Data.List.Nodup
import RecordLisp.Atom.Equality
import RecordLisp.Proofs.Heap.Slots

/-!
# Objects of two heaps that stand for one another

A pairing says which records and functions of one heap stand for which of another. Handles differ
between two heaps that hold the same data, so nothing may be compared across heaps except through a
pairing: atoms match when they are equal up to paired handles.
-/

namespace RecordLisp

section Lists

variable {α β : Type} {relation : α → β → Prop} {items : List α} {others : List β}

theorem exists_right_of_mem (related : List.Forall₂ relation items others) {item : α}
    (mem : item ∈ items) : ∃ other ∈ others, relation item other := by
  induction related with
  | nil => cases mem
  | cons first _ ih =>
      rcases List.mem_cons.mp mem with rfl | later
      · exact ⟨_, List.mem_cons_self, first⟩
      · obtain ⟨other, mem, here⟩ := ih later
        exact ⟨other, List.mem_cons_of_mem _ mem, here⟩

theorem exists_left_of_mem (related : List.Forall₂ relation items others) {other : β}
    (mem : other ∈ others) : ∃ item ∈ items, relation item other :=
  exists_right_of_mem related.flip mem

theorem getElem?_eq_some_iff_of_related (unique : Relator.BiUnique relation)
    (related : List.Forall₂ relation items others) {item : α} {other : β}
    (here : relation item other) (place : Nat) :
    items[place]? = some item ↔ others[place]? = some other := by
  induction related generalizing place with
  | nil => simp
  | @cons first first' _ _ firsts _ ih =>
      cases place with
      | zero => simpa using Relator.rel_eq unique firsts here
      | succ place => simpa using ih place

/-- The places of related keys in related lists are the same. -/
theorem find?_eq_of_related [DecidableEq α] [DecidableEq β] (unique : Relator.BiUnique relation)
    (related : List.Forall₂ relation items others) {index : Index α} {index' : Index β}
    (located : index.Locates items) (located' : index'.Locates others) {item : α} {other : β}
    (here : relation item other) : index.find? item = index'.find? other := by
  refine Option.ext fun place => ?_
  rw [located item place, located' other place]
  exact getElem?_eq_some_iff_of_related unique related here place

theorem contains_eq_of_related [BEq α] [LawfulBEq α] [BEq β] [LawfulBEq β]
    (unique : Relator.BiUnique relation) (related : List.Forall₂ relation items others) {item : α}
    {other : β} (here : relation item other) : items.contains item = others.contains other := by
  rw [Bool.eq_iff_iff, List.contains_iff_mem, List.contains_iff_mem]
  exact List.rel_mem unique here related

theorem optionRel_imp {stronger weaker : α → β → Prop} {value : Option α} {other : Option β}
    (implies : ∀ {a b}, stronger a b → weaker a b) (related : Option.Rel stronger value other) :
    Option.Rel weaker value other := by
  cases related with
  | none => exact .none
  | some here => exact .some (implies here)

end Lists

/-- Which objects of a heap stand for which of another. No object stands for two. -/
structure Pairing where
  record : RecordId → RecordId → Prop
  function : FunctionId → FunctionId → Prop
  record_unique : ∀ {a b a' b'}, record a b → record a' b' → (a = a' ↔ b = b')
  function_unique : ∀ {a b a' b'}, function a b → function a' b' → (a = a' ↔ b = b')

variable {pairing : Pairing}

theorem Pairing.biUnique_record : Relator.BiUnique pairing.record :=
  ⟨fun _ _ _ first second => (pairing.record_unique first second).mpr rfl,
    fun _ _ _ first second => (pairing.record_unique first second).mp rfl⟩

theorem Pairing.biUnique_function : Relator.BiUnique pairing.function :=
  ⟨fun _ _ _ first second => (pairing.function_unique first second).mpr rfl,
    fun _ _ _ first second => (pairing.function_unique first second).mp rfl⟩

/-- Handles of paired objects. -/
inductive Handle.Match (pairing : Pairing) : Handle → Handle → Prop where
  | record {a b : RecordId} : pairing.record a b → Match pairing (.record a) (.record b)
  | function {a b : FunctionId} : pairing.function a b → Match pairing (.function a) (.function b)

/-- Leaves that are equal up to paired handles. -/
inductive Leaf.Match (pairing : Pairing) : Leaf → Leaf → Prop where
  | same {value : Leaf} : value.handle? = none → Match pairing value value
  | record {a b : RecordId} : pairing.record a b → Match pairing (.record a) (.record b)
  | function {a b : FunctionId} : pairing.function a b → Match pairing (.function a) (.function b)

/-- Atoms that are equal up to paired handles. -/
inductive Atom.Match (pairing : Pairing) : Atom → Atom → Prop where
  | leaf {modifier : Modifier} {a b : Leaf} :
      a.Match pairing b → Match pairing (.leaf modifier a) (.leaf modifier b)
  | list {modifier : Modifier} {items others : List Atom} :
      List.Forall₂ (Match pairing) items others →
      Match pairing (.list modifier items) (.list modifier others)
  | member {modifier : Modifier} {target field target' field' : Atom} :
      Match pairing target target' → Match pairing field field' →
      Match pairing (.member modifier target field) (.member modifier target' field')

/-- Fields with the same names in the same order and values that are equal up to paired handles. -/
def Fields.Match (pairing : Pairing) : Fields → Fields → Prop :=
  List.Forall₂ fun field other => field.1 = other.1 ∧ field.2.Match pairing other.2

/-- Records with matching fields, paired parents and the same origin. -/
structure Record.Match (pairing : Pairing) (record other : Record) : Prop where
  fields : Fields.Match pairing record.fields other.fields
  parent : Option.Rel pairing.record record.parent other.parent
  literal : record.literal = other.literal

theorem Fields.Match.names_eq {fields others : Fields} (matched : fields.Match pairing others) :
    fields.names = others.names := by
  induction matched with
  | nil => rfl
  | cons field _ ih => exact congrArg₂ List.cons field.1 ih

theorem Handle.Match.unique {a b a' b' : Handle} (first : a.Match pairing b)
    (second : a'.Match pairing b') : a = a' ↔ b = b' := by
  cases first with
  | record paired =>
      cases second with
      | record paired' => simpa using pairing.record_unique paired paired'
      | function => simp
  | function paired =>
      cases second with
      | record => simp
      | function paired' => simpa using pairing.function_unique paired paired'

namespace Atom

mutual

/-- An atom without handles matches itself. -/
theorem match_self : ∀ atom : Atom, atom.handles (fun _ => false) = [] → atom.Match pairing atom
  | .leaf modifier value, closed => by
      apply Match.leaf
      apply Leaf.Match.same
      simpa [handles, Option.toList_eq_nil_iff] using closed
  | .list modifier items, closed => .list (matchAll_self items (by simpa [handles] using closed))
  | .member modifier target field, closed => by
      simp only [handles, List.append_eq_nil_iff] at closed
      exact .member (match_self target closed.1) (match_self field closed.2)

theorem matchAll_self : ∀ items : List Atom, handlesOfList (fun _ => false) items = [] →
    List.Forall₂ (Match pairing) items items
  | [], _ => .nil
  | item :: items, closed => by
      simp only [handlesOfList, List.append_eq_nil_iff] at closed
      exact .cons (match_self item closed.1) (matchAll_self items closed.2)

end

mutual

/-- The handles of matching atoms stand for one another, from left to right. -/
theorem Match.handles (inert : Modifier → Bool) : ∀ {atom other : Atom}, atom.Match pairing other →
    List.Forall₂ (Handle.Match pairing) (atom.handles inert) (other.handles inert)
  | .leaf _ _, _, .leaf value => by
      cases value with
      | same noHandle => simp [Atom.handles, noHandle]
      | record paired => exact .cons (.record paired) .nil
      | function paired => exact .cons (.function paired) .nil
  | .list modifier _, _, .list items => by
      simp only [Atom.handles]
      cases inert modifier with
      | true => exact .nil
      | false => exact matchAll_handles inert items
  | .member _ _ _, _, .member target field =>
      List.rel_append (Match.handles inert target) (Match.handles inert field)

theorem matchAll_handles (inert : Modifier → Bool) : ∀ {items others : List Atom},
    List.Forall₂ (Match pairing) items others →
      List.Forall₂ (Handle.Match pairing) (handlesOfList inert items) (handlesOfList inert others)
  | [], _, .nil => .nil
  | _ :: _, _, .cons item items =>
      List.rel_append (Match.handles inert item) (matchAll_handles inert items)

end

theorem Match.of_record {id : RecordId} {other : Atom}
    (matched : (Atom.record id).Match pairing other) :
    ∃ copy, other = .record copy ∧ pairing.record id copy := by
  cases matched with
  | leaf matched =>
      cases matched with
      | same noHandle => cases noHandle
      | record paired => exact ⟨_, rfl, paired⟩

theorem Match.of_function {id : FunctionId} {other : Atom}
    (matched : (Atom.function id).Match pairing other) :
    ∃ copy, other = .function copy ∧ pairing.function id copy := by
  cases matched with
  | leaf matched =>
      cases matched with
      | same noHandle => cases noHandle
      | function paired => exact ⟨_, rfl, paired⟩

end Atom

/-! ## Larger pairings -/

/-- Whether all objects that stand for one another still do in another pairing. -/
structure Pairing.Within (pairing later : Pairing) : Prop where
  record : ∀ {a b}, pairing.record a b → later.record a b
  function : ∀ {a b}, pairing.function a b → later.function a b

theorem Pairing.Within.refl (pairing : Pairing) : pairing.Within pairing :=
  ⟨fun paired => paired, fun paired => paired⟩

theorem Pairing.Within.trans {first second third : Pairing} (begins : first.Within second)
    (goesOn : second.Within third) : first.Within third :=
  ⟨fun paired => goesOn.record (begins.record paired),
    fun paired => goesOn.function (begins.function paired)⟩

section Within

variable {later : Pairing}

theorem Leaf.Match.mono {value other : Leaf} (within : pairing.Within later)
    (matched : value.Match pairing other) : value.Match later other := by
  cases matched with
  | same noHandle => exact .same noHandle
  | record paired => exact .record (within.record paired)
  | function paired => exact .function (within.function paired)

mutual

theorem Atom.Match.mono (within : pairing.Within later) : ∀ {atom other : Atom},
    atom.Match pairing other → atom.Match later other
  | .leaf _ _, _, .leaf value => .leaf (value.mono within)
  | .list _ _, _, .list items => .list (Atom.matchAll_mono within items)
  | .member _ _ _, _, .member target field =>
      .member (Atom.Match.mono within target) (Atom.Match.mono within field)

theorem Atom.matchAll_mono (within : pairing.Within later) : ∀ {items others : List Atom},
    List.Forall₂ (Atom.Match pairing) items others → List.Forall₂ (Atom.Match later) items others
  | [], _, .nil => .nil
  | _ :: _, _, .cons item items =>
      .cons (Atom.Match.mono within item) (Atom.matchAll_mono within items)

end

theorem Fields.Match.mono {fields others : Fields} (within : pairing.Within later)
    (matched : fields.Match pairing others) : fields.Match later others :=
  matched.imp fun _ _ field => ⟨field.1, field.2.mono within⟩

theorem Record.Match.mono {record other : Record} (within : pairing.Within later)
    (matched : record.Match pairing other) : record.Match later other :=
  ⟨matched.fields.mono within, optionRel_imp (fun paired => within.record paired)
    matched.parent, matched.literal⟩

end Within

/-! ## What matching atoms have in common -/

namespace Atom

variable {a b c d : Atom}

theorem Match.modifier_eq (matched : a.Match pairing b) : a.modifier = b.modifier := by
  cases matched <;> rfl

theorem Match.withModifier (matched : a.Match pairing b) (modifier : Modifier) :
    (a.withModifier modifier).Match pairing (b.withModifier modifier) := by
  cases matched with
  | leaf value => exact .leaf value
  | list items => exact .list items
  | member target field => exact .member target field

/-- A view of atoms that looks at leaves without handles alone is the same for both. -/
theorem Match.view_eq {α : Type} (view : Atom → α) (matched : a.Match pairing b) (other : α)
    (atRecord : ∀ modifier id, view (.leaf modifier (.record id)) = other)
    (atFunction : ∀ modifier id, view (.leaf modifier (.function id)) = other)
    (atList : ∀ modifier items, view (.list modifier items) = other)
    (atMember : ∀ modifier target field, view (.member modifier target field) = other) :
    view a = view b := by
  cases matched with
  | leaf value =>
      cases value with
      | same => rfl
      | record => rw [atRecord, atRecord]
      | function => rw [atFunction, atFunction]
  | list => rw [atList, atList]
  | member => rw [atMember, atMember]

theorem Match.isNil_eq (matched : a.Match pairing b) : a.isNil = b.isNil :=
  matched.view_eq isNil false (fun _ _ => rfl) (fun _ _ => rfl) (fun _ _ => rfl) fun _ _ _ => rfl

theorem Match.isTrue_eq (matched : a.Match pairing b) : a.isTrue = b.isTrue :=
  matched.view_eq isTrue false (fun _ _ => rfl) (fun _ _ => rfl) (fun _ _ => rfl) fun _ _ _ => rfl

theorem Match.integer?_eq (matched : a.Match pairing b) : a.integer? = b.integer? :=
  matched.view_eq integer? none (fun _ _ => rfl) (fun _ _ => rfl) (fun _ _ => rfl) fun _ _ _ => rfl

theorem Match.string?_eq (matched : a.Match pairing b) : a.string? = b.string? :=
  matched.view_eq string? none (fun _ _ => rfl) (fun _ _ => rfl) (fun _ _ => rfl) fun _ _ _ => rfl

theorem Match.token?_eq (matched : a.Match pairing b) : a.token? = b.token? :=
  matched.view_eq token? none (fun _ _ => rfl) (fun _ _ => rfl) (fun _ _ => rfl) fun _ _ _ => rfl

theorem Match.name?_eq (matched : a.Match pairing b) : a.name? = b.name? :=
  matched.view_eq name? none (fun _ _ => rfl) (fun _ _ => rfl) (fun _ _ => rfl) fun _ _ _ => rfl

theorem Match.typeName_eq (matched : a.Match pairing b) : a.typeName = b.typeName := by
  cases matched with
  | leaf value => cases value <;> rfl
  | list | member => rfl

theorem Match.list? (matched : a.Match pairing b) :
    Option.Rel (List.Forall₂ (Match pairing)) a.list? b.list? := by
  cases matched with
  | leaf | member => exact .none
  | list items => exact .some items

theorem Match.record? (matched : a.Match pairing b) :
    Option.Rel pairing.record a.record? b.record? := by
  cases matched with
  | leaf value =>
      cases value with
      | same noHandle =>
          rename_i value
          cases value with
          | record => cases noHandle
          | nil | integer | decimal | string | token | function => exact .none
      | record paired => exact .some paired
      | function => exact .none
  | list | member => exact .none

theorem Match.function? (matched : a.Match pairing b) :
    Option.Rel pairing.function a.function? b.function? := by
  cases matched with
  | leaf value =>
      cases value with
      | same noHandle =>
          rename_i value
          cases value with
          | function => cases noHandle
          | nil | integer | decimal | string | token | record => exact .none
      | record => exact .none
      | function paired => exact .some paired
  | list | member => exact .none

end Atom

/-- Equality does not tell matching leaves apart. -/
theorem Leaf.Match.same_eq {a b c d : Leaf} (first : a.Match pairing b)
    (second : c.Match pairing d) :
    a.same c = b.same d := by
  cases first with
  | same noHandle =>
      cases second with
      | same => rfl
      | record | function => cases a <;> first | rfl | cases noHandle
  | record paired =>
      cases second with
      | same noHandle => cases c <;> first | rfl | cases noHandle
      | record paired' =>
          have unique := pairing.record_unique paired paired'
          simp only [Leaf.same, Bool.beq_eq_decide_eq, Leaf.record.injEq, unique]
      | function => rfl
  | function paired =>
      cases second with
      | same noHandle => cases c <;> first | rfl | cases noHandle
      | record => rfl
      | function paired' =>
          have unique := pairing.function_unique paired paired'
          simp only [Leaf.same, Bool.beq_eq_decide_eq, Leaf.function.injEq, unique]

mutual

theorem Atom.Match.same_eq : ∀ {a b c d : Atom}, a.Match pairing b → c.Match pairing d →
    a.same c = b.same d
  | .leaf _ _, _, .leaf _ _, _, .leaf first, .leaf second => by
      simp only [Atom.same, first.same_eq second]
  | .list _ _, _, .list _ _, _, .list first, .list second => by
      simp only [Atom.same, Atom.sameItems_eq first second]
  | .member _ _ _, _, .member _ _ _, _, .member target field, .member target' field' => by
      simp only [Atom.same, Atom.Match.same_eq target target', Atom.Match.same_eq field field']
  | .leaf _ _, _, .list _ _, _, .leaf _, .list _
  | .leaf _ _, _, .member _ _ _, _, .leaf _, .member _ _
  | .list _ _, _, .leaf _ _, _, .list _, .leaf _
  | .list _ _, _, .member _ _ _, _, .list _, .member _ _
  | .member _ _ _, _, .leaf _ _, _, .member _ _, .leaf _
  | .member _ _ _, _, .list _ _, _, .member _ _, .list _ => rfl

theorem Atom.sameItems_eq : ∀ {items others more rest : List Atom},
    List.Forall₂ (Atom.Match pairing) items others → List.Forall₂ (Atom.Match pairing) more rest →
      Atom.sameItems items more = Atom.sameItems others rest
  | [], _, [], _, .nil, .nil | [], _, _ :: _, _, .nil, .cons _ _
  | _ :: _, _, [], _, .cons _ _, .nil => rfl
  | _ :: _, _, _ :: _, _, .cons first items, .cons second more => by
      simp only [Atom.sameItems, Atom.Match.same_eq first second, Atom.sameItems_eq items more]

end

end RecordLisp
