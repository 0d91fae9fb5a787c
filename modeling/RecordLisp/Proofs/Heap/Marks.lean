import RecordLisp.Proofs.Heap.Grounded
import RecordLisp.Proofs.Source.Reading

/-!
# Where marks stand

Modifiers come from source text, and source text knows no objects but the literal records that it
makes itself. Programs put atoms into lists, take them out again and drop modifiers, but they add
none. So a marked list never holds a function or a record that is not literal, and neither does a
chain; and a leaf is marked only when it is nil or a token.
-/

namespace RecordLisp

namespace Atom

/-- The objects that an atom refers to at any depth, in marked lists as well. -/
abbrev objects (atom : Atom) : List Handle := atom.handles fun _ => false

/-- The objects that the items of a list refer to. -/
abbrev objectsOfList (items : List Atom) : List Handle := handlesOfList (fun _ => false) items

theorem objects_list (modifier : Modifier) (items : List Atom) :
    (Atom.list modifier items).objects = objectsOfList items := by
  simp [objects, handles]

theorem objects_withModifier (atom : Atom) (modifier : Modifier) :
    (atom.withModifier modifier).objects = atom.objects := by
  cases atom <;> rfl

theorem mem_handlesOfList {inert : Modifier → Bool} {items : List Atom} {handle : Handle} :
    handle ∈ handlesOfList inert items ↔ ∃ item ∈ items, handle ∈ item.handles inert := by
  induction items with
  | nil => simp [handlesOfList]
  | cons item items ih => rw [handlesOfList, List.mem_append, ih, List.exists_mem_cons_iff]

end Atom

namespace Heap

variable {heap after : Heap} {atom lhs rhs : Atom}

/-- Whether a handle is that of a literal record in use. -/
def IsLiteral (heap : Heap) : Handle → Prop
  | .record id => heap.HasRecord id ∧ (heap.record id).literal = true
  | .function _ => False

/-- Whether an atom refers to objects in use only, and to literal records only in marked lists and
in chains; and whether only what takes a modifier is marked. -/
inductive Marked (heap : Heap) : Atom → Prop where
  | leaf {modifier : Modifier} {value : Leaf} : (∀ handle ∈ value.handle?, heap.InUse handle) →
      (modifier = .plain ∨ (Atom.leaf modifier value).takesModifier = true) →
      Marked heap (.leaf modifier value)
  | list {modifier : Modifier} {items : List Atom} : (∀ item ∈ items, Marked heap item) →
      (modifier = .plain ∨ ∀ handle ∈ Atom.objectsOfList items, heap.IsLiteral handle) →
      Marked heap (.list modifier items)
  | member {modifier : Modifier} {target field : Atom} : Marked heap target → Marked heap field →
      (modifier = .plain ∨ target.leftmost.takesModifier = true) →
      (∀ handle ∈ (Atom.member modifier target field).objects, heap.IsLiteral handle) →
      Marked heap (.member modifier target field)

/-! ## Marked atoms -/

theorem marked_record {id : RecordId} : heap.Marked (.record id) ↔ heap.HasRecord id := by
  constructor
  · rintro ⟨used, -⟩
    exact used _ rfl
  · intro used
    refine .leaf (fun handle mem => ?_) (.inl rfl)
    cases mem
    exact used

theorem marked_function {id : FunctionId} : heap.Marked (.function id) ↔ heap.HasClosure id := by
  constructor
  · rintro ⟨used, -⟩
    exact used _ rfl
  · intro used
    refine .leaf (fun handle mem => ?_) (.inl rfl)
    cases mem
    exact used

namespace Marked

/-- What a search finds in an atom is in use. -/
theorem inUse (marked : heap.Marked atom) {inert : Modifier → Bool} :
    ∀ handle ∈ atom.handles inert, heap.InUse handle := by
  induction marked with
  | leaf used _ => exact fun handle mem => used handle (Option.mem_toList.mp mem)
  | list _ _ ih =>
      intro handle mem
      rw [Atom.handles] at mem
      split at mem
      · cases mem
      · obtain ⟨item, inside, mem⟩ := Atom.mem_handlesOfList.mp mem
        exact ih item inside handle mem
  | member _ _ _ _ target field =>
      exact fun handle mem => (List.mem_append.mp mem).elim (target handle) (field handle)

/-- What is known of an atom is known in every heap in which its objects are in use and as
literal. -/
theorem mono (marked : heap.Marked atom) (inUse : ∀ handle ∈ atom.objects, after.InUse handle)
    (literal : ∀ id, .record id ∈ atom.objects →
      (after.record id).literal = (heap.record id).literal) :
    after.Marked atom := by
  have isLiteral {handles : List Handle} (known : ∀ handle ∈ handles, heap.IsLiteral handle)
      (inUse : ∀ handle ∈ handles, after.InUse handle)
      (literal : ∀ id, .record id ∈ handles →
        (after.record id).literal = (heap.record id).literal) :
      ∀ handle ∈ handles, after.IsLiteral handle := by
    intro handle mem
    cases handle with
    | record id => exact ⟨inUse _ mem, (literal id mem).trans (known _ mem).2⟩
    | function id => exact known _ mem
  induction marked with
  | leaf _ allowed =>
      exact .leaf (fun handle mem => inUse handle (Option.mem_toList.mpr mem)) allowed
  | list _ inside ih =>
      rw [Atom.objects_list] at inUse literal
      refine .list (fun item mem => ih item mem (fun handle held => ?_) fun id held => ?_) ?_
      · exact inUse handle (Atom.mem_handlesOfList.mpr ⟨item, mem, held⟩)
      · exact literal id (Atom.mem_handlesOfList.mpr ⟨item, mem, held⟩)
      · exact inside.imp_right fun known => isLiteral known inUse literal
  | member _ _ front inside target field =>
      refine .member (target (fun handle mem => ?_) fun id mem => ?_)
        (field (fun handle mem => ?_) fun id mem => ?_) front (isLiteral inside inUse literal)
      · exact inUse handle (List.mem_append_left _ mem)
      · exact literal id (List.mem_append_left _ mem)
      · exact inUse handle (List.mem_append_right _ mem)
      · exact literal id (List.mem_append_right _ mem)

theorem unmarked (marked : heap.Marked atom) : heap.Marked atom.unmarked := by
  cases marked with
  | leaf used _ => exact .leaf used (.inl rfl)
  | list items _ => exact .list items (.inl rfl)
  | member target field _ inside => exact .member target field (.inl rfl) inside

/-- What a search does not find because it stands in a marked list is a literal record. -/
theorem mem_handles_or_isLiteral (marked : heap.Marked atom) {inert : Modifier → Bool}
    (searched : inert .plain = false) :
    ∀ handle ∈ atom.objects, handle ∈ atom.handles inert ∨ heap.IsLiteral handle := by
  induction marked with
  | leaf _ _ => exact fun handle mem => .inl mem
  | list _ inside ih =>
      intro handle mem
      rw [Atom.objects_list] at mem
      rcases inside with rfl | literal
      · obtain ⟨item, inside, mem⟩ := Atom.mem_handlesOfList.mp mem
        refine (ih item inside handle mem).imp_left fun found => ?_
        rw [Atom.handles, searched]
        exact Atom.mem_handlesOfList.mpr ⟨item, inside, found⟩
      · exact .inr (literal handle mem)
  | member _ _ _ inside _ _ => exact fun handle mem => .inr (inside handle mem)

end Marked

/-! ## Atoms of source text -/

/-- Whether an atom is marked as source text can be, and refers to literal records only. -/
def InSource (heap : Heap) (atom : Atom) : Prop :=
  heap.Marked atom ∧ ∀ handle ∈ atom.objects, heap.IsLiteral handle

/-- Source text can put a modifier in front of what takes one. -/
theorem InSource.mark (known : heap.InSource atom) {modifier : Modifier}
    (allowed : modifier = .plain ∨ atom.leftmost.takesModifier = true) :
    heap.InSource (atom.withModifier modifier) := by
  obtain ⟨marked, literal⟩ := known
  refine ⟨?_, (Atom.objects_withModifier atom modifier).symm ▸ literal⟩
  cases marked with
  | @leaf _ value used _ =>
      refine .leaf used (allowed.imp_right fun takes => ?_)
      cases value <;> exact takes
  | list items _ =>
      rw [Atom.objects_list] at literal
      exact .list items (.inr literal)
  | member target field _ inside => exact .member target field allowed inside

theorem InSource.list {items : List Atom} (known : ∀ item ∈ items, heap.InSource item) :
    heap.InSource (.ofList items) := by
  refine ⟨.list (fun item mem => (known item mem).1) (.inl rfl), fun handle mem => ?_⟩
  rw [Atom.objects_list] at mem
  obtain ⟨item, inside, mem⟩ := Atom.mem_handlesOfList.mp mem
  exact (known item inside).2 handle mem

theorem InSource.item {modifier : Modifier} {items : List Atom}
    (known : heap.InSource (.list modifier items)) : ∀ item ∈ items, heap.InSource item := by
  obtain ⟨⟨⟩, literal⟩ := known
  rename_i marked _
  rw [Atom.objects_list] at literal
  exact fun item inside => ⟨marked item inside, fun handle mem =>
    literal handle (Atom.mem_handlesOfList.mpr ⟨item, inside, mem⟩)⟩

theorem InSource.member (left : heap.InSource lhs) (right : heap.InSource rhs) :
    heap.InSource (.member .plain lhs rhs) := by
  have literal : ∀ handle ∈ (Atom.member .plain lhs rhs).objects, heap.IsLiteral handle :=
    fun handle mem => (List.mem_append.mp mem).elim (left.2 handle) (right.2 handle)
  exact ⟨.member left.1 right.1 (.inl rfl) literal, literal⟩

/-- Joining gives an atom of source text. The modifier that goes to the first segment is one that
the segment takes. -/
theorem InSource.attach : ∀ {rhs lhs : Atom} {inherited : Modifier}, heap.InSource lhs →
    heap.InSource rhs → (inherited = .plain ∨ rhs.leftmost.takesModifier = true) →
      heap.InSource (lhs.attach inherited rhs)
  | .leaf modifier value, lhs, inherited, left, right, allowed => by
      refine left.member ?_
      cases modifier with
      | plain => exact right.mark allowed
      | quote | expand | evaluate => exact right
  | .list modifier items, lhs, inherited, left, right, allowed => by
      refine left.member ?_
      cases modifier with
      | plain => exact right.mark allowed
      | quote | expand | evaluate => exact right
  | .member modifier target field, lhs, inherited, left, right, allowed => by
      obtain ⟨_ | _ | ⟨markedTarget, markedField, front, literal⟩, -⟩ := right
      have ofTarget : heap.InSource target :=
        ⟨markedTarget, fun handle mem => literal handle (List.mem_append_left _ mem)⟩
      have ofField : heap.InSource field :=
        ⟨markedField, fun handle mem => literal handle (List.mem_append_right _ mem)⟩
      refine (left.attach ofTarget ?_).attach ofField (.inl rfl)
      cases modifier with
      | plain => exact allowed
      | quote | expand | evaluate => exact front

/-! ## Marked heaps -/

/-- Whether everything in use refers to objects in use, and marks stand as programs can put them. -/
structure IsMarked (heap : Heap) : Prop where
  value : ∀ id, heap.HasRecord id → ∀ value ∈ (heap.record id).values, heap.Marked value
  parent : ∀ id, heap.HasRecord id → ∀ parent ∈ (heap.record id).parent, heap.HasRecord parent
  body : ∀ id, heap.HasClosure id → heap.Marked (heap.closure id).body
  scope : ∀ id, heap.HasClosure id → heap.HasRecord (heap.closure id).scope

/-- Whether everything in use stays in use, and literal or not as it is. -/
structure GrowsInto (heap after : Heap) : Prop where
  inUse : ∀ handle, heap.InUse handle → after.InUse handle
  literal : ∀ id, heap.HasRecord id → (after.record id).literal = (heap.record id).literal

namespace GrowsInto

theorem refl (heap : Heap) : heap.GrowsInto heap := ⟨fun _ used => used, fun _ _ => rfl⟩

theorem trans {later : Heap} (grows : heap.GrowsInto after) (goesOn : after.GrowsInto later) :
    heap.GrowsInto later where
  inUse handle used := goesOn.inUse handle (grows.inUse handle used)
  literal id used :=
    (goesOn.literal id (grows.inUse (.record id) used)).trans (grows.literal id used)

theorem marked (grows : heap.GrowsInto after) (known : heap.Marked atom) : after.Marked atom :=
  known.mono (fun handle mem => grows.inUse handle (known.inUse handle mem))
    fun id mem => grows.literal id (known.inUse (.record id) mem)

theorem isLiteral (grows : heap.GrowsInto after) {handle : Handle} (known : heap.IsLiteral handle) :
    after.IsLiteral handle := by
  cases handle with
  | record id => exact ⟨grows.inUse (.record id) known.1, (grows.literal id known.1).trans known.2⟩
  | function id => exact known

end GrowsInto

theorem Keeps.growsInto (keeps : heap.Keeps after) : heap.GrowsInto after where
  inUse handle used := by
    cases handle with
    | record id => exact keeps.hasRecord id used
    | function id => exact keeps.hasClosure id used
  literal id used := by rw [keeps.record id used]

namespace IsMarked

variable (kept : heap.IsMarked)
include kept

theorem allocRecord {record : Record} (values : ∀ value ∈ record.values, heap.Marked value)
    (parent : ∀ parent ∈ record.parent, heap.HasRecord parent) :
    (heap.allocRecord record).2.IsMarked := by
  have grows := (heap.keeps_allocRecord record).growsInto
  constructor
  case value =>
    intro id used value mem
    rcases hasRecord_allocRecord_iff.mp used with rfl | used
    · rw [record_allocRecord_self] at mem
      exact grows.marked (values value mem)
    · rw [record_allocRecord_of_hasRecord used] at mem
      exact grows.marked (kept.value id used value mem)
  case parent =>
    intro id used other mem
    rcases hasRecord_allocRecord_iff.mp used with rfl | used
    · rw [record_allocRecord_self] at mem
      exact grows.inUse (.record other) (parent other mem)
    · rw [record_allocRecord_of_hasRecord used] at mem
      exact grows.inUse (.record other) (kept.parent id used other mem)
  case body =>
    intro id used
    rw [closure_allocRecord]
    exact grows.marked (kept.body id (hasClosure_allocRecord_iff.mp used))
  case scope =>
    intro id used
    rw [closure_allocRecord]
    exact grows.inUse (.record _) (kept.scope id (hasClosure_allocRecord_iff.mp used))

theorem allocClosure {closure : Closure} (body : heap.Marked closure.body)
    (scope : heap.HasRecord closure.scope) : (heap.allocClosure closure).2.IsMarked := by
  have grows := (heap.keeps_allocClosure closure).growsInto
  constructor
  case value =>
    intro id used value mem
    rw [record_allocClosure] at mem
    exact grows.marked (kept.value id (hasRecord_allocClosure_iff.mp used) value mem)
  case parent =>
    intro id used other mem
    rw [record_allocClosure] at mem
    exact grows.inUse (.record other)
      (kept.parent id (hasRecord_allocClosure_iff.mp used) other mem)
  case body =>
    intro id used
    rcases hasClosure_allocClosure_iff.mp used with rfl | used
    · rw [closure_allocClosure_self]
      exact grows.marked body
    · rw [closure_allocClosure_of_hasClosure used]
      exact grows.marked (kept.body id used)
  case scope =>
    intro id used
    rcases hasClosure_allocClosure_iff.mp used with rfl | used
    · rw [closure_allocClosure_self]
      exact grows.inUse (.record _) scope
    · rw [closure_allocClosure_of_hasClosure used]
      exact grows.inUse (.record _) (kept.scope id used)

/-- A record in use may get other values that are marked so, as long as it stays literal or not. -/
theorem modifyRecord {id : RecordId} {change : Record → Record} (used : heap.HasRecord id)
    (values : ∀ value ∈ (change (heap.record id)).values, heap.Marked value)
    (parent : ∀ parent ∈ (change (heap.record id)).parent, heap.HasRecord parent)
    (literal : (change (heap.record id)).literal = (heap.record id).literal) :
    (heap.modifyRecord id change).IsMarked ∧ heap.GrowsInto (heap.modifyRecord id change) := by
  have changed := record_modifyRecord_self heap change used.1
  have grows : heap.GrowsInto (heap.modifyRecord id change) := by
    refine ⟨fun handle used => ?_, fun other _ => ?_⟩
    · cases handle with
      | record other => exact hasRecord_modifyRecord_iff.mpr used
      | function other => exact hasClosure_modifyRecord_iff.mpr used
    · by_cases same : other = id
      · rw [same, changed, literal]
      · rw [record_modifyRecord_of_ne heap change same]
  refine ⟨?_, grows⟩
  constructor
  case value =>
    intro other used value mem
    by_cases same : other = id
    · rw [same, changed] at mem
      exact grows.marked (values value mem)
    · rw [record_modifyRecord_of_ne heap change same] at mem
      exact grows.marked (kept.value other (hasRecord_modifyRecord_iff.mp used) value mem)
  case parent =>
    intro other used above mem
    by_cases same : other = id
    · rw [same, changed] at mem
      exact grows.inUse (.record above) (parent above mem)
    · rw [record_modifyRecord_of_ne heap change same] at mem
      exact grows.inUse (.record above)
        (kept.parent other (hasRecord_modifyRecord_iff.mp used) above mem)
  case body => exact fun other used => grows.marked (kept.body other used)
  case scope => exact fun other used => grows.inUse (.record _) (kept.scope other used)

theorem setScope {id : FunctionId} {scope : RecordId} (used : heap.HasClosure id)
    (known : heap.HasRecord scope) :
    (heap.modifyClosure id fun closure => { closure with scope }).IsMarked ∧
      heap.GrowsInto (heap.modifyClosure id fun closure => { closure with scope }) := by
  have changed := closure_modifyClosure_self (fun closure => { closure with scope }) used.1
  have grows : heap.GrowsInto (heap.modifyClosure id fun closure => { closure with scope }) := by
    refine ⟨fun handle used => ?_, fun other _ => by rw [record_modifyClosure]⟩
    cases handle with
    | record other => exact hasRecord_modifyClosure_iff.mpr used
    | function other => exact hasClosure_modifyClosure_iff.mpr used
  refine ⟨?_, grows⟩
  constructor
  case value => exact fun other used value mem => grows.marked (kept.value other used value mem)
  case parent =>
    exact fun other used above mem => grows.inUse (.record above) (kept.parent other used above mem)
  case body =>
    intro other used
    by_cases same : other = id
    · rw [same, changed]
      exact grows.marked (kept.body id (same ▸ hasClosure_modifyClosure_iff.mp used))
    · rw [closure_modifyClosure_of_ne _ same]
      exact grows.marked (kept.body other (hasClosure_modifyClosure_iff.mp used))
  case scope =>
    intro other used
    by_cases same : other = id
    · rw [same, changed]
      exact grows.inUse (.record scope) known
    · rw [closure_modifyClosure_of_ne _ same]
      exact grows.inUse (.record _) (kept.scope other (hasClosure_modifyClosure_iff.mp used))

/-- Everything that marked atoms lead to is in use. -/
theorem grounded {roots : List Atom} (known : ∀ root ∈ roots, heap.Marked root) :
    heap.Grounded roots := by
  intro handle leads
  induction leads with
  | root mem =>
      obtain ⟨root, inside, mem⟩ := List.mem_flatMap.mp mem
      exact (known root inside).inUse _ mem
  | @step handle next _ edge used =>
      cases handle with
      | record id =>
          rcases List.mem_append.mp edge with above | inValues
          · obtain ⟨parent, isParent, rfl⟩ := Option.map_eq_some_iff.mp (Option.mem_toList.mp above)
            exact kept.parent id used parent isParent
          · obtain ⟨value, mem, inside⟩ := List.mem_flatMap.mp inValues
            exact (kept.value id used value mem).inUse next inside
      | function id =>
          rcases List.mem_cons.mp edge with rfl | inside
          · exact kept.scope id used
          · exact (kept.body id used).inUse next inside

/-- A collection keeps marks where they stand in what it keeps, and in the atoms that it knows
of. -/
theorem collect {roots : List Atom} (known : ∀ root ∈ roots, heap.Marked root) :
    (heap.collect roots).2.IsMarked ∧ ∀ root ∈ roots, (heap.collect roots).2.Marked root := by
  have grounded := kept.grounded known
  have slots handle (leads : heap.Leads roots handle) := (grounded handle leads).hasSlot
  have inUse := inUse_collect_iff slots
  have marked {atom : Atom} (known : heap.Marked atom)
      (led : ∀ handle ∈ atom.objects, heap.Leads roots handle) :
      (heap.collect roots).2.Marked atom := by
    refine known.mono (fun handle mem => ?_) fun id mem => ?_
    · exact (inUse handle).mpr ⟨known.inUse handle mem, led handle mem⟩
    · rw [record_collect slots (led _ mem)]
  refine ⟨?_, fun root mem => marked (known root mem) fun handle inside => ?_⟩
  · constructor
    case value =>
      intro id used value mem
      obtain ⟨used, leads⟩ := (inUse (.record id)).mp used
      rw [record_collect slots leads] at mem
      refine marked (kept.value id used value mem) fun handle inside => .step leads ?_
      exact List.mem_append_right _ (List.mem_flatMap.mpr ⟨value, mem, inside⟩)
    case parent =>
      intro id used parent mem
      obtain ⟨used, leads⟩ := (inUse (.record id)).mp used
      rw [record_collect slots leads] at mem
      exact ((inUse (.record parent)).mpr
        ⟨kept.parent id used parent mem, .step leads (mem_references_parent mem)⟩)
    case body =>
      intro id used
      obtain ⟨used, leads⟩ := (inUse (.function id)).mp used
      rw [closure_collect slots leads]
      exact marked (kept.body id used) fun handle inside =>
        .step leads (List.mem_cons_of_mem _ inside)
    case scope =>
      intro id used
      obtain ⟨used, leads⟩ := (inUse (.function id)).mp used
      rw [closure_collect slots leads]
      exact (inUse (.record _)).mpr ⟨kept.scope id used, .step leads List.mem_cons_self⟩
  · exact .root (List.mem_flatMap.mpr ⟨root, mem, inside⟩)

end IsMarked

end Heap

end RecordLisp
