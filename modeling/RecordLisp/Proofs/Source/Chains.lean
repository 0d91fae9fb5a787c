import RecordLisp.Proofs.Heap.Contents
import RecordLisp.Proofs.Source.RoundTrip

/-!
# Chains lean left

Joining a chain to an atom puts the segments of the chain behind the atom, one by one.
`Atom.segments` says what these are without joining anything: the parts that are no member
expressions, from left to right. A modifier in front of a member expression belongs to its first
segment, so a segment has the nearest of its own modifier and those of the member expressions that
it is the first segment of.

The reader joins at every level of its own recursion. `LeansLeft` is the shape that comes of it, for
trees of the grammar and for atoms together with the literal records behind their handles: chains
lean left, and modifiers stand in front of nil, tokens, lists and whole chains only.
-/

namespace RecordLisp

namespace Atom

/-- The parts of an atom that are no member expressions, from left to right, each with the modifiers
in front of it from the inside out: its own, then those of the member expressions that it is the
first segment of, then those in `outer`. -/
def markedSegments (outer : List Modifier) : Atom → List (Atom × List Modifier)
  | .member modifier target field =>
      target.markedSegments (modifier :: outer) ++ field.markedSegments []
  | segment => [(segment, segment.modifier :: outer)]

/-- A segment with the nearest modifier in front of it. -/
def nearestMarked (segment : Atom × List Modifier) : Atom :=
  segment.1.withModifier ((segment.2.find? (· ≠ .plain)).getD .plain)

/-- The segments of a chain, each with the modifier that it has in the chain. -/
def segments (atom : Atom) : List Atom := (atom.markedSegments []).map nearestMarked

theorem getD_find?_cons (modifier : Modifier) (outer : List Modifier) :
    ((modifier :: outer).find? (· ≠ .plain)).getD .plain =
      modifier.orElse ((outer.find? (· ≠ .plain)).getD .plain) := by
  cases modifier <;> rfl

/-- Attaching a chain attaches its segments; the first of them inherits when nothing nearer is
marked. -/
theorem attach_eq_chain (outer : List Modifier) : ∀ rhs lhs : Atom,
    lhs.attach ((outer.find? (· ≠ .plain)).getD .plain) rhs =
      lhs.chain ((rhs.markedSegments outer).map nearestMarked)
  | .leaf modifier value, lhs => by
      simp only [attach, markedSegments, List.map_singleton, chain_cons, chain_nil, nearestMarked,
        Atom.modifier, getD_find?_cons]
  | .list modifier items, lhs => by
      simp only [attach, markedSegments, List.map_singleton, chain_cons, chain_nil, nearestMarked,
        Atom.modifier, getD_find?_cons]
  | .member modifier target field, lhs => by
      have first := attach_eq_chain (modifier :: outer) target lhs
      have second := attach_eq_chain [] field
        (lhs.chain ((target.markedSegments (modifier :: outer)).map nearestMarked))
      rw [getD_find?_cons] at first
      rw [attach, first, markedSegments, List.map_append]
      exact second.trans (List.foldl_append ..).symm

end Atom

/-! ## Trees of the grammar -/

/-- Whether chains lean left in a tree at any depth, with no field marked to be expanded, and no
number, string or record is marked. -/
inductive Tree.LeansLeft : Tree → Prop where
  | leaf {modifier : Modifier} {value : Leaf} : value.handle? = none →
      (modifier = .plain ∨ (Tree.leaf modifier value).takesModifier = true) →
      LeansLeft (.leaf modifier value)
  | list {modifier : Modifier} {items : List Tree} : (∀ item ∈ items, LeansLeft item) →
      LeansLeft (.list modifier items)
  | member {modifier : Modifier} {target field : Tree} : LeansLeft target → LeansLeft field →
      target.modifier = .plain → field.isMember = false → field.modifier ≠ .expand →
      LeansLeft (.member modifier target field)
  | record {fields : List (String × Tree)} : (∀ field ∈ fields, LeansLeft field.2) →
      LeansLeft (.record fields)

namespace Tree

/-- Whether a tree leans left and can stand in a chain behind a modifier. -/
structure IsSegment (modifier : Modifier) (tree : Tree) : Prop where
  leansLeft : tree.LeansLeft
  unmarked : tree.modifier = .plain
  single : tree.isMember = false
  allowed : modifier = .plain ∨ tree.takesModifier = true

theorem isMember_withModifier (tree : Tree) (modifier : Modifier) :
    (tree.withModifier modifier).isMember = tree.isMember := by
  cases tree <;> rfl

namespace IsSegment

variable {modifier : Modifier} {first : Tree}

theorem marked (segment : first.IsSegment modifier) : (first.withModifier modifier).LeansLeft := by
  obtain ⟨leansLeft, unmarked, single, allowed⟩ := segment
  cases leansLeft with
  | @leaf _ value noHandle _ =>
      refine .leaf noHandle (allowed.imp_right fun takes => ?_)
      cases value <;> exact takes
  | list items => exact .list items
  | member => cases single
  | record fields => exact .record fields

theorem modifier_marked (segment : first.IsSegment modifier) :
    (first.withModifier modifier).modifier = modifier := by
  obtain ⟨_, _, _, plain | takes⟩ := segment
  · subst plain
    cases first <;> rfl
  · cases first with
    | leaf | list | member => rfl
    | record => cases takes

/-- A chain of segments leans left, with the modifier of its first segment in front of it. -/
theorem chain (segment : first.IsSegment modifier) {fields : List Tree}
    (others : ∀ field ∈ fields, ∃ mark inner, field = Tree.withModifier inner mark ∧
      inner.IsSegment mark ∧ mark ≠ .expand) :
    ((first.chain fields).withModifier modifier).LeansLeft := by
  -- Behind the first field the chain is a member expression, which takes any modifier.
  have behind : ∀ (fields : List Tree) (target : Tree), target.LeansLeft →
      target.modifier = .plain →
      (∀ field ∈ fields, ∃ mark inner, field = Tree.withModifier inner mark ∧
        inner.IsSegment mark ∧ mark ≠ .expand) →
      fields ≠ [] → ((target.chain fields).withModifier modifier).LeansLeft := by
    intro fields
    induction fields with
    | nil => exact fun _ _ _ _ nonempty => absurd rfl nonempty
    | cons field fields ih =>
        intro target leansLeft unmarked others _
        obtain ⟨here, later⟩ := List.forall_mem_cons.mp others
        obtain ⟨mark, inner, rfl, isField, noExpand⟩ := here
        have single : (inner.withModifier mark).isMember = false := by
          rw [isMember_withModifier]
          exact isField.single
        have joined (modifier : Modifier) :
            (Tree.member modifier target (inner.withModifier mark)).LeansLeft := by
          refine .member leansLeft isField.marked unmarked single ?_
          rw [isField.modifier_marked]
          exact noExpand
        cases fields with
        | nil => exact joined modifier
        | cons next fields => exact ih _ (joined .plain) rfl later (List.cons_ne_nil _ _)
  cases fields with
  | nil => exact segment.marked
  | cons field fields =>
      exact behind _ first segment.leansLeft segment.unmarked others (List.cons_ne_nil _ _)

end IsSegment

end Tree

namespace Grammar

theorem Lexeme.isSegment {modifier : Modifier} {input rest : List Char} {value : Leaf}
    (lexeme : Lexeme input value rest)
    (literal : ReadM.isLiteral value = true → modifier = .plain) :
    (Tree.leaf .plain value).IsSegment modifier := by
  cases lexeme with
  | string | integer | decimal =>
      exact ⟨.leaf rfl (.inl rfl), rfl, rfl, .inl (literal rfl)⟩
  | token =>
      unfold tokenLeaf
      split <;> exact ⟨.leaf rfl (.inl rfl), rfl, rfl, .inr rfl⟩

mutual

theorem Atom.leansLeft {input rest : List Char} {tree : Tree} :
    Atom input tree rest → tree.LeansLeft
  | .segments segment chain => segment.isSegment.chain chain.areFields

theorem Segment.isSegment {input rest : List Char} {modifier : Modifier} {tree : Tree} :
    Segment input modifier tree rest → tree.IsSegment modifier
  | .body _ _ body => body.isSegment

theorem Body.isSegment {modifier : Modifier} {input rest : List Char} {tree : Tree} :
    Body modifier input tree rest → tree.IsSegment modifier
  | .leaf lexeme literal => lexeme.isSegment literal
  | .list items => ⟨.list items.leanLeft, rfl, rfl, .inr rfl⟩
  | .record entries => ⟨.record entries.leanLeft, rfl, rfl, .inl rfl⟩

theorem Items.leanLeft {input rest : List Char} {items : List Tree} :
    Items input items rest → ∀ item ∈ items, item.LeansLeft
  | .close _ => List.forall_mem_nil _
  | .item item items => List.forall_mem_cons.mpr ⟨item.leansLeft, items.leanLeft⟩

theorem Entries.leanLeft {input rest : List Char} {fields : List (String × Tree)} :
    Entries input fields rest → ∀ field ∈ fields, field.2.LeansLeft
  | .close _ => List.forall_mem_nil _
  | .entry entry _ entries => by
      obtain _ | inside | _ := entry.leansLeft
      exact List.forall_mem_cons.mpr ⟨inside _ (by simp), entries.leanLeft⟩

theorem Chain.areFields {input rest : List Char} {fields : List Tree} :
    Chain input fields rest → ∀ field ∈ fields, ∃ mark inner, field = Tree.withModifier inner mark ∧
      inner.IsSegment mark ∧ mark ≠ .expand
  | .stop _ _ => List.forall_mem_nil _
  | .field _ segment noExpand chain =>
      List.forall_mem_cons.mpr ⟨⟨_, _, rfl, segment.isSegment, noExpand⟩, chain.areFields⟩

end

end Grammar

/-! ## Atoms and their literal records -/

namespace Heap

/-- Whether an atom occurs in another, in its lists and chains and in the values of its records. -/
inductive Occurs (heap : Heap) (node : Atom) : Atom → Prop where
  | here : Occurs heap node node
  | item {modifier : Modifier} {items : List Atom} {item : Atom} : item ∈ items →
      Occurs heap node item → Occurs heap node (.list modifier items)
  | target {modifier : Modifier} {target field : Atom} : Occurs heap node target →
      Occurs heap node (.member modifier target field)
  | field {modifier : Modifier} {target field : Atom} : Occurs heap node field →
      Occurs heap node (.member modifier target field)
  | value {modifier : Modifier} {id : RecordId} {value : Atom} : value ∈ (heap.record id).values →
      Occurs heap node value → Occurs heap node (.leaf modifier (.record id))

/-- Whether chains lean left in an atom and in the values of its records, with no field marked to be
expanded, and no number, string or record is marked. -/
inductive LeansLeft (heap : Heap) : Atom → Prop where
  | leaf {modifier : Modifier} {value : Leaf} : value.handle? = none →
      (modifier = .plain ∨ (Atom.leaf modifier value).takesModifier = true) →
      LeansLeft heap (.leaf modifier value)
  | list {modifier : Modifier} {items : List Atom} : (∀ item ∈ items, LeansLeft heap item) →
      LeansLeft heap (.list modifier items)
  | member {modifier : Modifier} {target field : Atom} :
      LeansLeft heap target → LeansLeft heap field →
      target.modifier = .plain → field.isMember = false → field.modifier ≠ .expand →
      LeansLeft heap (.member modifier target field)
  | record {id : RecordId} : heap.HasRecord id →
      (∀ value ∈ (heap.record id).values, LeansLeft heap value) → LeansLeft heap (.record id)

variable {heap after : Heap} {atom node : Atom}

theorem LeansLeft.mono (leansLeft : heap.LeansLeft atom) (grows : heap.Extends after) :
    after.LeansLeft atom := by
  induction leansLeft with
  | leaf noHandle allowed => exact .leaf noHandle allowed
  | list _ ih => exact .list ih
  | member _ _ unmarked single noExpand target field =>
      exact .member target field unmarked single noExpand
  | record used _ ih => exact .record (grows.hasRecord _ used) (grows.record _ used ▸ ih)

theorem leansLeft_allocRecord {fields : Fields}
    (values : ∀ field ∈ fields, heap.LeansLeft field.2) :
    let made := heap.allocRecord (Record.emptyLiteral.insertAll fields)
    heap.Extends made.2 ∧ made.2.LeansLeft (.record made.1) := by
  intro made
  have grows : heap.Extends made.2 := heap.extends_allocRecord _
  refine ⟨grows, .record (hasRecord_allocRecord_iff.mpr (.inl rfl)) fun value mem => ?_⟩
  rw [record_allocRecord_self] at mem
  rcases Record.mem_values_insertAll mem with none | stored
  · cases none
  · obtain ⟨field, inside, rfl⟩ := List.mem_map.mp stored
    exact (values field inside).mono grows

theorem LeansLeft.occurs (leansLeft : heap.LeansLeft atom) (occurs : heap.Occurs node atom) :
    heap.LeansLeft node := by
  induction occurs with
  | here => exact leansLeft
  | item mem _ ih =>
      obtain _ | items | _ := leansLeft
      exact ih (items _ mem)
  | target _ ih =>
      obtain _ | _ | target := leansLeft
      exact ih target
  | field _ ih =>
      obtain _ | _ | ⟨_, field⟩ := leansLeft
      exact ih field
  | value mem _ ih =>
      obtain noHandle | _ | _ | ⟨_, values⟩ := leansLeft
      · cases noHandle
      · exact ih (values _ mem)

end Heap

/-! ## Building -/

namespace Tree

mutual

/-- What leans left as a tree leans left in the heap that its literal records are put into. -/
theorem LeansLeft.build : ∀ tree : Tree, tree.LeansLeft → ∀ heap : Heap,
    heap.Extends (tree.build heap).2 ∧ (tree.build heap).2.LeansLeft (tree.build heap).1
  | .leaf modifier value, .leaf noHandle allowed, heap => by
      refine ⟨.refl heap, .leaf noHandle (allowed.imp_right fun takes => ?_)⟩
      cases value <;> exact takes
  | .list _ items, .list leanLeft, heap =>
      (buildItems_leanLeft items leanLeft heap).imp_right .list
  | .member _ target field, .member leansLeft fieldLeansLeft unmarked single noExpand, heap => by
      obtain ⟨grows, first⟩ := leansLeft.build target heap
      obtain ⟨growsOn, second⟩ := fieldLeansLeft.build field (target.build heap).2
      refine ⟨grows.trans growsOn, .member (first.mono growsOn) second ?_ ?_ ?_⟩
      · exact (target.modifier_build heap).trans unmarked
      · exact (field.isMember_build _).trans single
      · rw [field.modifier_build]
        exact noExpand
  | .record fields, .record leanLeft, heap => by
      obtain ⟨grows, values⟩ := buildFields_leanLeft fields leanLeft heap
      exact (Heap.leansLeft_allocRecord values).imp_left grows.trans

theorem buildItems_leanLeft : ∀ items : List Tree, (∀ item ∈ items, item.LeansLeft) → ∀ heap : Heap,
    heap.Extends (buildItems items heap).2 ∧
      ∀ item ∈ (buildItems items heap).1, (buildItems items heap).2.LeansLeft item
  | [], _, heap => ⟨.refl heap, List.forall_mem_nil _⟩
  | item :: items, leanLeft, heap => by
      obtain ⟨here, later⟩ := List.forall_mem_cons.mp leanLeft
      obtain ⟨grows, first⟩ := here.build item heap
      obtain ⟨growsOn, others⟩ := buildItems_leanLeft items later (item.build heap).2
      exact ⟨grows.trans growsOn, List.forall_mem_cons.mpr ⟨first.mono growsOn, others⟩⟩

theorem buildFields_leanLeft :
    ∀ fields : List (String × Tree), (∀ field ∈ fields, field.2.LeansLeft) →
    ∀ heap : Heap, heap.Extends (buildFields fields heap).2 ∧
      ∀ field ∈ (buildFields fields heap).1, (buildFields fields heap).2.LeansLeft field.2
  | [], _, heap => ⟨.refl heap, List.forall_mem_nil _⟩
  | (_, value) :: fields, leanLeft, heap => by
      obtain ⟨here, later⟩ := List.forall_mem_cons.mp leanLeft
      obtain ⟨grows, first⟩ := here.build value heap
      obtain ⟨growsOn, others⟩ := buildFields_leanLeft fields later (value.build heap).2
      exact ⟨grows.trans growsOn, List.forall_mem_cons.mpr ⟨first.mono growsOn, others⟩⟩

end

end Tree

/-- Joining puts the segments of a chain behind an atom, one by one. In whatever source text is read
as, inside lists and the values of record literals too, the left side of a member expression is
unmarked, its right side is no member expression and not marked to be expanded, and of the leaves
only nil and tokens are marked. -/
theorem Source.chains_lean_left :
    (∀ lhs rhs : Atom, lhs.join rhs = rhs.segments.foldl (.member .plain) lhs) ∧
      ∀ (source : Source) (heap after : Heap) (atom : Atom), source.read heap = (.ok atom, after) →
        ∀ node, after.Occurs node atom →
          (∀ modifier target field, node = .member modifier target field →
            target.modifier = .plain ∧ field.isMember = false ∧ field.modifier ≠ .expand) ∧
          (∀ modifier value, node = .leaf modifier value → modifier ≠ .plain →
            value = .nil ∨ ∃ name, value = .token name) := by
  refine ⟨fun lhs rhs => Atom.attach_eq_chain [] rhs lhs, ?_⟩
  intro source heap after atom read node occurs
  obtain ⟨tree, isProgram, built⟩ := read_eq_ok_iff.mp read
  have leansLeft := (Grammar.Atom.leansLeft isProgram).build tree heap
  rw [built] at leansLeft
  have leansLeft := leansLeft.2.occurs occurs
  constructor
  · rintro modifier target field rfl
    obtain _ | _ | ⟨_, _, unmarked, single, noExpand⟩ := leansLeft
    exact ⟨unmarked, single, noExpand⟩
  · rintro modifier value rfl marked
    cases leansLeft with
    | leaf _ allowed =>
        have takes := allowed.resolve_left marked
        cases value with
        | nil => exact .inl rfl
        | token name => exact .inr ⟨name, rfl⟩
        | _ => cases takes
    | record => exact absurd rfl marked

/-- A forced chain with a quoted field in a record literal. -/
theorem Source.chains_lean_left_in_record :
    let source := Source.anonymous "[(k :a.'b.c)]"
    let target := Atom.member .plain (.token "a") (.leaf .quote (.token "b"))
    let node := Atom.member .evaluate target (.token "c")
    ∃ after, source.read .empty = (.ok (.record ⟨0⟩), after) ∧ after.Occurs node (.record ⟨0⟩) ∧
      target.modifier = .plain ∧ (Atom.token "c").isMember = false ∧
      (Atom.token "c").modifier ≠ .expand := by
  intro source target node
  let tree : Tree := .record [("k", .member .evaluate
    (.member .plain (.leaf .plain (.token "a")) (.leaf .quote (.token "b")))
    (.leaf .plain (.token "c")))]
  have spelled : tree.spelling = source.content.toList := by decide +kernel
  have isProgram : Grammar.Program source.content.toList tree :=
    spelled ▸ Grammar.program_spelling (by decide +kernel)
  have read : source.read .empty = (.ok (.record ⟨0⟩), (tree.build .empty).2) :=
    read_of_program isProgram
  have stored : ((tree.build .empty).2.record ⟨0⟩).values = [node] := rfl
  have occurs : (tree.build .empty).2.Occurs node (.record ⟨0⟩) :=
    .value (stored ▸ List.mem_singleton_self node) .here
  exact ⟨_, read, occurs, (chains_lean_left.2 source .empty _ _ read node occurs).1 _ _ _ rfl⟩

end RecordLisp
