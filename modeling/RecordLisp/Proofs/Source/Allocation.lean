import Mathlib.Data.List.Nodup
import Mathlib.Data.List.Perm.Subperm
import Mathlib.Data.Set.Function
import RecordLisp.Proofs.Source.Chains
import RecordLisp.Proofs.Source.Literals

/-!
# What reading adds to the heap

Reading changes nothing that was in use. The records it adds are the literals that are closed in the
text, one record for each, also when the text turns out not to be a program.

When the text is a program, its atom holds records of its own literals only, each once. A literal
may name a field twice, and then the records in the earlier value are left out, so an atom can hold
fewer records than reading has added.
-/

namespace RecordLisp

namespace Heap

/-- The records that are in use in one heap and not in another before it. -/
def newRecords (before after : Heap) : Set RecordId :=
  {id | after.HasRecord id ∧ ¬ before.HasRecord id}

variable {heap : Heap} {fields stored : Fields} {trees others : List (String × Tree)}
  {ids valueIds : List RecordId}

/-- A value that is stored takes the place of an older one, with all records in that. -/
theorem UnfoldsFields.put {value : Atom} {tree : Tree}
    (unfolds : heap.UnfoldsFields fields trees ids) (name : String)
    (unfoldsValue : heap.Unfolds value tree valueIds) :
    ∃ trees kept, heap.UnfoldsFields (fields.put name value) trees kept ∧
      kept.Subperm (ids ++ valueIds) := by
  induction fields generalizing trees ids with
  | nil =>
      cases unfolds
      refine ⟨_, _, .cons unfoldsValue .nil, ?_⟩
      rw [List.append_nil, List.nil_append]
  | cons field fields ih =>
      cases unfolds with
      | @cons _ _ _ _ _ firstIds restIds first rest =>
          rw [Fields.put]
          split
          · refine ⟨_, _, .cons unfoldsValue rest, ?_⟩
            rw [List.append_assoc]
            exact List.perm_append_comm.subperm.trans (List.sublist_append_right _ _).subperm
          · obtain ⟨trees, kept, unfolds, part⟩ := ih rest
            refine ⟨_, _, .cons first unfolds, ?_⟩
            rw [List.append_assoc]
            exact (List.subperm_append_left firstIds).mpr part

theorem UnfoldsFields.insertAll {record : Record}
    (unfolds : heap.UnfoldsFields record.fields trees ids)
    (unfoldsStored : heap.UnfoldsFields stored others valueIds) :
    ∃ trees kept, heap.UnfoldsFields (record.insertAll stored).fields trees kept ∧
      kept.Subperm (ids ++ valueIds) := by
  induction stored generalizing record trees ids others valueIds with
  | nil =>
      cases unfoldsStored
      exact ⟨_, _, unfolds, (List.append_nil ids).symm ▸ .refl ids⟩
  | cons field stored ih =>
      cases unfoldsStored with
      | @cons name value _ _ _ firstIds restIds first rest =>
          obtain ⟨trees, kept, unfolds, part⟩ := unfolds.put name first
          rw [← Record.fields_insert] at unfolds
          obtain ⟨trees, kept', unfolds, part'⟩ := ih unfolds rest
          refine ⟨_, _, unfolds, part'.trans ?_⟩
          rw [← List.append_assoc]
          exact (List.subperm_append_right restIds).mpr part

/-- What unfolds stays as it is while more records are added. -/
theorem Unfolds.kept {before middle after : Heap} {added : List RecordId} {atom : Atom}
    {tree : Tree} (unfolds : middle.Unfolds atom tree ids) (part : ids.Subperm added)
    (adds : before.Adds middle added)
    (keeps : middle.Extends after) : after.Unfolds atom tree ids :=
  unfolds.congr fun id mem => keeps.record id (adds.used id (part.subset mem))

end Heap

namespace Tree

-- Records are added from the inside out, so what was built before stays as it is.
mutual

/-- An atom that is built holds records of the literals in its tree only, each at most once. -/
theorem LeansLeft.owns : ∀ tree : Tree, tree.LeansLeft → ∀ heap : Heap, ∃ added copy ids,
    heap.Adds (tree.build heap).2 added ∧ (tree.build heap).2.Unfolds (tree.build heap).1 copy ids ∧
      ids.Subperm added
  | .leaf _ _, .leaf noHandle _, heap => ⟨[], _, [], .none heap, .leaf noHandle, .refl []⟩
  | .list _ items, .list leanLeft, heap => by
      obtain ⟨added, copies, ids, adds, unfolds, part⟩ := buildItems_own items leanLeft heap
      exact ⟨added, _, ids, adds, .list unfolds, part⟩
  | .member _ target field, .member leansLeft fieldLeansLeft _ _ _, heap => by
      obtain ⟨added, copy, ids, adds, unfolds, part⟩ := leansLeft.owns target heap
      obtain ⟨added', copy', ids', adds', unfolds', part'⟩ :=
        fieldLeansLeft.owns field (target.build heap).2
      have kept := unfolds.kept part adds adds'.keeps
      exact ⟨_, _, _, adds.append adds', .member kept unfolds', part.append part'⟩
  | .record fields, .record leanLeft, heap => by
      obtain ⟨added, copies, ids, adds, unfolds, part⟩ := buildFields_own fields leanLeft heap
      have empty :
          (buildFields fields heap).2.UnfoldsFields Record.emptyLiteral.fields [] [] := .nil
      obtain ⟨copies, kept, unfolds, part'⟩ := empty.insertAll unfolds
      have part := part'.trans part
      refine ⟨_, _, _, adds.allocRecord _, unfolds.allocRecord ?_ ?_ ?_,
        (List.subperm_cons _).mpr part⟩
      · exact Record.literal_insertAll _ _
      · exact Record.parent_insertAll _ _
      · exact fun id mem => adds.used id (part.subset mem)

theorem buildItems_own : ∀ items : List Tree, (∀ item ∈ items, item.LeansLeft) → ∀ heap : Heap,
    ∃ added copies ids, heap.Adds (buildItems items heap).2 added ∧
      (buildItems items heap).2.UnfoldsItems (buildItems items heap).1 copies ids ∧
      ids.Subperm added
  | [], _, heap => ⟨[], [], [], .none heap, .nil, .refl []⟩
  | item :: items, leanLeft, heap => by
      obtain ⟨here, later⟩ := List.forall_mem_cons.mp leanLeft
      obtain ⟨added, copy, ids, adds, unfolds, part⟩ := here.owns item heap
      obtain ⟨added', copies, ids', adds', unfolds', part'⟩ :=
        buildItems_own items later (item.build heap).2
      have kept := unfolds.kept part adds adds'.keeps
      exact ⟨_, _, _, adds.append adds', .cons kept unfolds', part.append part'⟩

theorem buildFields_own : ∀ fields : List (String × Tree), (∀ field ∈ fields, field.2.LeansLeft) →
    ∀ heap : Heap, ∃ added copies ids, heap.Adds (buildFields fields heap).2 added ∧
      (buildFields fields heap).2.UnfoldsFields (buildFields fields heap).1 copies ids ∧
      ids.Subperm added
  | [], _, heap => ⟨[], [], [], .none heap, .nil, .refl []⟩
  | (_, value) :: fields, leanLeft, heap => by
      obtain ⟨here, later⟩ := List.forall_mem_cons.mp leanLeft
      obtain ⟨added, copy, ids, adds, unfolds, part⟩ := here.owns value heap
      obtain ⟨added', copies, ids', adds', unfolds', part'⟩ :=
        buildFields_own fields later (value.build heap).2
      have kept := unfolds.kept part adds adds'.keeps
      exact ⟨_, _, _, adds.append adds', .cons kept unfolds', part.append part'⟩

end

end Tree

/-- The records that a run adds and the literals that it closes belong together one by one. -/
theorem ReadM.Fills.exists_bijOn {closes : List Char → Prop} {before after : ReadState}
    {made : List (RecordId × List Char)} (fills : Fills closes before after made) :
    ∃ place : RecordId → List Char,
      Set.BijOn place (before.heap.newRecords after.heap) {inside | closes inside} ∧
      ∀ id ∈ before.heap.newRecords after.heap,
        '[' :: place id <:+ before.cursor.rest ∧ before.heap.MadeFrom after.heap id (place id) := by
  have mem_of_new : ∀ id ∈ before.heap.newRecords after.heap, ∃ inside, (id, inside) ∈ made := by
    intro id new
    have listed := (fills.only id new.1).resolve_left new.2
    obtain ⟨⟨_, inside⟩, mem, rfl⟩ := List.mem_map.mp listed
    exact ⟨inside, mem⟩
  choose! place made_place using mem_of_new
  have new_of_mem : ∀ entry ∈ made, entry.1 ∈ before.heap.newRecords after.heap := by
    intro entry mem
    have listed : entry.1 ∈ made.map Prod.fst := List.mem_map_of_mem mem
    exact ⟨fills.adds.used _ listed, fills.adds.new _ listed⟩
  refine ⟨place, ⟨?mapsTo, ?injOn, ?surjOn⟩, fun id new => ?_⟩
  case mapsTo =>
    intro id new
    exact (fills.closes_iff _).mpr (List.mem_map_of_mem (made_place id new))
  case injOn =>
    intro first newFirst second newSecond same
    have entries := List.inj_on_of_nodup_map fills.once (made_place first newFirst)
      (made_place second newSecond) same
    exact congrArg Prod.fst entries
  case surjOn =>
    intro inside closed
    obtain ⟨entry, mem, rfl⟩ := List.mem_map.mp ((fills.closes_iff _).mp closed)
    have new := new_of_mem entry mem
    have entries := List.inj_on_of_nodup_map fills.adds.once (made_place _ new) mem rfl
    exact ⟨entry.1, new, congrArg Prod.snd entries⟩
  · have mem := made_place id new
    exact ⟨(fills.span _ (List.mem_map_of_mem mem)).2, fills.madeFrom _ mem⟩

namespace Source

/-- Reading keeps all that was in use and adds no function, also when it fails. Each record that it
adds is literal, has no parent, and is made of a literal that is closed in the text. Every such
literal has its own record. An atom that is read holds none but these records, each once, and no
functions, so nothing in it is shared and nothing holds itself. -/
theorem read_adds_literals (source : Source) (heap : Heap) :
    let after := (source.read heap).2
    heap.Extends after ∧
      (∃ place : RecordId → List Char,
        Set.BijOn place (heap.newRecords after)
          {inside | Grammar.AtomCloses source.content.toList inside} ∧
        ∀ id ∈ heap.newRecords after, '[' :: place id <:+ source.content.toList ∧
          (after.record id).literal = true ∧ (after.record id).parent = none ∧
          heap.MadeFrom after id (place id)) ∧
      ∀ atom, (source.read heap).1 = .ok atom →
        ∃ tree ids, after.Unfolds atom tree ids ∧ ids.Nodup ∧
          ∀ id ∈ ids, id ∈ heap.newRecords after := by
  intro after
  obtain ⟨last, made, fills⟩ := source.exists_fills heap
  obtain ⟨place, bijOn, literals⟩ := fills.exists_bijOn
  refine ⟨fills.adds.keeps, ⟨place, bijOn, fun id new => ?_⟩, fun atom given => ?_⟩
  · obtain ⟨opened, made⟩ := literals id new
    exact ⟨opened, made.literal, made.noParent, made⟩
  · have read : source.read heap = (.ok atom, after) := Prod.ext given rfl
    obtain ⟨tree, isProgram, built⟩ := read_eq_ok_iff.mp read
    obtain ⟨added, copy, ids, adds, unfolds, part⟩ := isProgram.leansLeft.owns tree heap
    rw [built] at adds unfolds
    obtain ⟨listed, perm, sublist⟩ := part
    refine ⟨copy, ids, unfolds, perm.nodup_iff.mp (adds.once.sublist sublist), fun id mem => ?_⟩
    have inside := sublist.subset (perm.mem_iff.mpr mem)
    exact ⟨adds.used id inside, adds.new id inside⟩

/-- A literal that names a field twice, read where the first slot is free. The record that is
overwritten is in that slot, and the atom does not hold it. -/
theorem read_adds_literals_repeated_name :
    let heap : Heap :=
      { Heap.empty with
        records := #[.empty, .empty]
        freeRecords := [⟨0⟩]
        freeRecords_inRange := by decide
        freeRecords_nodup := by decide }
    let source := Source.anonymous "[(x [(y b)])(x [])]"
    let after := (source.read heap).2
    (⟨0⟩ ∈ heap.newRecords after ∧ (after.record ⟨0⟩).literal = true ∧
      (after.record ⟨0⟩).parent = none) ∧
      (source.read heap).1 = .ok (.record ⟨3⟩) ∧
      ∃ tree ids, after.Unfolds (.record ⟨3⟩) tree ids ∧ ids.Nodup ∧
        ∀ id ∈ ids, id ∈ heap.newRecords after := by
  intro heap source after
  obtain ⟨_, ⟨place, _, literals⟩, atoms⟩ := read_adds_literals source heap
  have reused : ⟨0⟩ ∈ heap.newRecords after := by
    constructor
    · constructor <;> decide +kernel
    · exact fun used => used.2 (List.mem_singleton_self _)
  let tree : Tree := .record [("x", .record [("y", .leaf .plain (.token "b"))]), ("x", .record [])]
  have spelled : tree.spelling = source.content.toList := by decide +kernel
  have isProgram : Grammar.Program source.content.toList tree :=
    spelled ▸ Grammar.program_spelling (by decide +kernel)
  have read : source.read heap = (.ok (.record ⟨3⟩), (tree.build heap).2) :=
    read_of_program isProgram
  have given : (source.read heap).1 = .ok (.record ⟨3⟩) := congrArg Prod.fst read
  obtain ⟨_, literal, noParent, _⟩ := literals ⟨0⟩ reused
  exact ⟨⟨reused, literal, noParent⟩, given, atoms _ given⟩

end Source

end RecordLisp
