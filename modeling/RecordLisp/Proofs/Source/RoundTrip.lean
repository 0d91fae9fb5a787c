import RecordLisp.Printer
import RecordLisp.Proofs.Heap.Slots
import RecordLisp.Proofs.Source.Spelling

/-!
# Reading undoes printing

An atom with literal records unfolds into a tree, in which the fields of each record stand where its
handle was. Printing such an atom gives the spelling of its tree, as long as no record occurs twice:
a second occurrence would print as a placeholder. Reading the spelling builds the tree again in
another heap, with a new record for every literal.

Two atoms of two heaps that unfold into one tree differ only in the handles of their literal
records.
-/

namespace RecordLisp

namespace Heap

mutual

/-- An atom, its tree, and the handles of the literal records in it from left to right. -/
inductive Unfolds (heap : Heap) : Atom → Tree → List RecordId → Prop where
  | leaf {modifier : Modifier} {value : Leaf} :
      value.handle? = none → Unfolds heap (.leaf modifier value) (.leaf modifier value) []
  | list {modifier : Modifier} {items : List Atom} {trees : List Tree} {ids : List RecordId} :
      UnfoldsItems heap items trees ids →
      Unfolds heap (.list modifier items) (.list modifier trees) ids
  | member {modifier : Modifier} {target field : Atom} {targetTree fieldTree : Tree}
      {targetIds fieldIds : List RecordId} :
      Unfolds heap target targetTree targetIds → Unfolds heap field fieldTree fieldIds →
      Unfolds heap (.member modifier target field) (.member modifier targetTree fieldTree)
        (targetIds ++ fieldIds)
  | record {id : RecordId} {trees : List (String × Tree)} {ids : List RecordId} :
      (heap.record id).literal = true → (heap.record id).parent = none →
      UnfoldsFields heap (heap.record id).fields trees ids →
      Unfolds heap (.record id) (.record trees) (id :: ids)

/-- The items of a list and their trees. -/
inductive UnfoldsItems (heap : Heap) : List Atom → List Tree → List RecordId → Prop where
  | nil : UnfoldsItems heap [] [] []
  | cons {item : Atom} {items : List Atom} {tree : Tree} {trees : List Tree}
      {itemIds ids : List RecordId} :
      Unfolds heap item tree itemIds → UnfoldsItems heap items trees ids →
      UnfoldsItems heap (item :: items) (tree :: trees) (itemIds ++ ids)

/-- The fields of a literal record and their trees. -/
inductive UnfoldsFields (heap : Heap) : Fields → List (String × Tree) → List RecordId → Prop where
  | nil : UnfoldsFields heap [] [] []
  | cons {name : String} {value : Atom} {fields : Fields} {tree : Tree}
      {trees : List (String × Tree)} {valueIds ids : List RecordId} :
      Unfolds heap value tree valueIds → UnfoldsFields heap fields trees ids →
      UnfoldsFields heap ((name, value) :: fields) ((name, tree) :: trees) (valueIds ++ ids)

end

/-- Whether the text of an atom is read back: the atom unfolds into a printable tree, and no record
occurs in it twice. -/
def Printable (heap : Heap) (atom : Atom) : Prop :=
  ∃ tree ids, heap.Unfolds atom tree ids ∧ ids.Nodup ∧ tree.isPrintable = true

/-! ## Printing -/

/-- A step of printing that gives a text with some characters and adds some records to the pass. -/
def Prints (action : PrintM String) (ids : List RecordId) (characters : List Char) : Prop :=
  ∀ pass : PrintPass, (∀ id ∈ ids, id ∉ pass) →
    ∃ text, action.run pass = some (text, ids.reverse ++ pass) ∧ text.toList = characters

theorem Prints.bind {action : PrintM String} {next : String → PrintM String}
    {ids others : List RecordId} {characters : List Char} {whole : List Char}
    (prints : Prints action ids characters) (once : (ids ++ others).Nodup)
    (goesOn : ∀ text : String, text.toList = characters → Prints (next text) others whole) :
    Prints (action >>= next) (ids ++ others) whole := by
  intro pass fresh
  obtain ⟨text, printed, spelled⟩ := prints pass fun id mem =>
    fresh id (List.mem_append_left others mem)
  have fresh' : ∀ id ∈ others, id ∉ ids.reverse ++ pass := by
    intro id mem
    rw [List.mem_append, List.mem_reverse, not_or]
    exact ⟨fun earlier => (List.nodup_append.mp once).2.2 id earlier id mem rfl,
      fresh id (List.mem_append_right ids mem)⟩
  obtain ⟨text', printed', spelled'⟩ := goesOn text spelled _ fresh'
  refine ⟨text', ?_, spelled'⟩
  rw [StateT.run_bind, printed, List.reverse_append, List.append_assoc]
  exact printed'

theorem prints_pure {text : String} {characters : List Char} (spelled : text.toList = characters) :
    Prints (pure text) [] characters :=
  fun _ _ => ⟨text, rfl, spelled⟩

theorem Prints.map {action : PrintM String} {change : String → String} {ids : List RecordId}
    {characters whole : List Char} (prints : Prints action ids characters) (once : ids.Nodup)
    (changed : ∀ text : String, text.toList = characters → (change text).toList = whole) :
    Prints (action >>= fun text => pure (change text)) ids whole := by
  have single : (ids ++ []).Nodup := by simpa using once
  have chained := prints.bind single fun text spelled => prints_pure (changed text spelled)
  simpa using chained

theorem prints_leaf {object : Handle → PrintM String} {value : Leaf}
    (noHandle : value.handle? = none) :
    Prints (value.printWith object) [] value.spelling := by
  cases value with
  | nil => exact prints_pure rfl
  | integer | decimal | string | token => exact prints_pure rfl
  | record | function => cases noHandle

/-- The first occurrence of a record in a pass prints its fields. -/
theorem prints_record {heap : Heap} {fuel : Nat} {id : RecordId} {ids : List RecordId}
    {characters : List Char}
    (prints : Prints (printFields (heap.printObject fuel) (heap.record id).fields) ids characters)
    (new : id ∉ ids) :
    Prints (heap.printObject (fuel + 1) (.record id)) (id :: ids) ('[' :: characters ++ [']']) := by
  intro pass fresh
  obtain ⟨text, printed, spelled⟩ := prints (id :: pass) (by
    intro other mem
    rw [List.mem_cons, not_or]
    exact ⟨fun same => new (same ▸ mem), fresh other (List.mem_cons_of_mem id mem)⟩)
  refine ⟨"[" ++ text ++ "]", ?_, by simp [spelled]⟩
  have unseen : pass.contains id = false := by simpa using fresh id List.mem_cons_self
  rw [printObject, StateT.run_bind]
  change StateT.run (if pass.contains id = true then _ else _) pass = _
  have noted : StateT.run (modify (id :: ·) : PrintM PUnit) pass = some (⟨⟩, id :: pass) := rfl
  rw [unseen, if_neg Bool.false_ne_true, StateT.run_bind, noted]
  simp only [Option.bind_eq_bind, Option.bind_some]
  rw [StateT.run_bind, printed]
  simp

-- One case for each way to unfold. Each record inside another takes one unit of fuel and is one of
-- the handles, so as much fuel as there are handles suffices.
mutual

theorem Unfolds.prints {heap : Heap} {atom : Atom} {tree : Tree} {ids : List RecordId} :
    heap.Unfolds atom tree ids → ids.Nodup → ∀ {fuel : Nat}, ids.length ≤ fuel →
      Prints (atom.printWith (heap.printObject fuel)) ids tree.spelling
  | .leaf noHandle, once, fuel, _ => by
      refine (prints_leaf noHandle).map once fun text spelled => ?_
      simp [Tree.spelling, Modifier.toList_text, spelled]
  | .list items, once, fuel, enough => by
      refine (items.prints once enough).map once fun text spelled => ?_
      simp [Tree.spelling, Modifier.toList_text, spelled]
  | .member target field, once, fuel, enough => by
      have parts := List.nodup_append.mp once
      rw [List.length_append] at enough
      refine (target.prints parts.1 (by omega)).bind once fun text spelled => ?_
      refine (field.prints parts.2.1 (by omega)).map parts.2.1 fun text' spelled' => ?_
      simp [Tree.spelling, Modifier.toList_text, spelled, spelled']
  | .record _ _ fields, once, fuel + 1, enough => by
      obtain ⟨new, others⟩ := List.nodup_cons.mp once
      have inside := fields.prints others (Nat.le_of_succ_le_succ enough)
      refine (prints_record inside new).map once fun text spelled => ?_
      simp [Tree.spelling, Modifier.toList_text, Modifier.characters, Modifier.char?, spelled]

theorem UnfoldsItems.prints {heap : Heap} {items : List Atom} {trees : List Tree}
    {ids : List RecordId} :
    heap.UnfoldsItems items trees ids → ids.Nodup → ∀ {fuel : Nat}, ids.length ≤ fuel →
      Prints (Atom.printItems (heap.printObject fuel) items) ids (Tree.itemsSpelling trees)
  | .nil, _, _, _ => prints_pure rfl
  | .cons item items, once, fuel, enough => by
      have parts := List.nodup_append.mp once
      rw [List.length_append] at enough
      refine (item.prints parts.1 (by omega)).bind once fun text spelled => ?_
      refine (items.prints parts.2.1 (by omega)).map parts.2.1 fun text' spelled' => ?_
      rw [Tree.itemsSpelling]
      cases items with
      | nil => simp [spelled]
      | cons => simp [spelled, spelled']

theorem UnfoldsFields.prints {heap : Heap} {fields : Fields} {trees : List (String × Tree)}
    {ids : List RecordId} :
    heap.UnfoldsFields fields trees ids → ids.Nodup → ∀ {fuel : Nat}, ids.length ≤ fuel →
      Prints (printFields (heap.printObject fuel) fields) ids (Tree.fieldsSpelling trees)
  | .nil, _, _, _ => prints_pure rfl
  | .cons value fields, once, fuel, enough => by
      have parts := List.nodup_append.mp once
      rw [List.length_append] at enough
      refine (value.prints parts.1 (by omega)).bind once fun text spelled => ?_
      refine (fields.prints parts.2.1 (by omega)).map parts.2.1 fun text' spelled' => ?_
      simp [Tree.fieldsSpelling, spelled, spelled']

end

mutual

theorem Unfolds.inRange {heap : Heap} {atom : Atom} {tree : Tree} {ids : List RecordId} :
    heap.Unfolds atom tree ids → ∀ id ∈ ids, id.index < heap.records.size
  | .leaf _ => by simp
  | .list items => items.inRange
  | .member target field => by
      intro id mem
      exact (List.mem_append.mp mem).elim (target.inRange id) (field.inRange id)
  | .record literal _ fields => by
      intro id mem
      rcases List.mem_cons.mp mem with rfl | inside
      · refine inRange_of_record_ne_empty fun empty => ?_
        rw [empty] at literal
        cases literal
      · exact fields.inRange id inside

theorem UnfoldsItems.inRange {heap : Heap} {items : List Atom} {trees : List Tree}
    {ids : List RecordId} :
    heap.UnfoldsItems items trees ids → ∀ id ∈ ids, id.index < heap.records.size
  | .nil => by simp
  | .cons item items => by
      intro id mem
      exact (List.mem_append.mp mem).elim (item.inRange id) (items.inRange id)

theorem UnfoldsFields.inRange {heap : Heap} {fields : Fields} {trees : List (String × Tree)}
    {ids : List RecordId} :
    heap.UnfoldsFields fields trees ids → ∀ id ∈ ids, id.index < heap.records.size
  | .nil => by simp
  | .cons value fields => by
      intro id mem
      exact (List.mem_append.mp mem).elim (value.inRange id) (fields.inRange id)

end

/-- An atom without a repeated record prints as the spelling of its tree. -/
theorem Unfolds.toList_print {heap : Heap} {atom : Atom} {tree : Tree} {ids : List RecordId}
    (unfolds : heap.Unfolds atom tree ids) (once : ids.Nodup) :
    (heap.print atom).toList = tree.spelling := by
  have enough : ids.length ≤ heap.printDepth := by
    have few := length_le_of_inRange once unfolds.inRange
    have deep : heap.records.size + 2 ≤ heap.printDepth :=
      Nat.le_mul_of_pos_right _ (Nat.succ_pos _)
    omega
  obtain ⟨text, printed, spelled⟩ := unfolds.prints once enough [] (by simp)
  unfold print printIn
  rw [printed]
  exact spelled

/-! ## Building -/

/-- Everything that was in use before is in use after, with the same contents, and no closure
changed. -/
structure Extends (before after : Heap) : Prop where
  hasRecord : ∀ id, before.HasRecord id → after.HasRecord id
  record : ∀ id, before.HasRecord id → after.record id = before.record id
  closures : after.closures = before.closures
  freeClosures : after.freeClosures = before.freeClosures

theorem Extends.refl (heap : Heap) : heap.Extends heap :=
  ⟨fun _ used => used, fun _ _ => rfl, rfl, rfl⟩

theorem Extends.trans {first second third : Heap} (begins : first.Extends second)
    (goesOn : second.Extends third) : first.Extends third where
  hasRecord id used := goesOn.hasRecord id (begins.hasRecord id used)
  record id used := (goesOn.record id (begins.hasRecord id used)).trans (begins.record id used)
  closures := goesOn.closures.trans begins.closures
  freeClosures := goesOn.freeClosures.trans begins.freeClosures

theorem Extends.keeps {before after : Heap} (extends' : before.Extends after) :
    before.Keeps after where
  hasRecord := extends'.hasRecord
  record := extends'.record
  hasClosure id used := by
    unfold HasClosure
    rwa [extends'.closures, extends'.freeClosures]
  closure id _ := by
    unfold closure
    rw [extends'.closures]

theorem extends_allocRecord (heap : Heap) (record : Record) :
    heap.Extends (heap.allocRecord record).2 where
  hasRecord _ used := hasRecord_allocRecord_iff.mpr (.inr used)
  record _ used := record_allocRecord_of_hasRecord used
  closures := closures_allocRecord heap record
  freeClosures := freeClosures_allocRecord heap record

-- Unfolding looks only at the records whose handles it lists.
mutual

theorem Unfolds.congr {heap after : Heap} {atom : Atom} {tree : Tree} {ids : List RecordId} :
    heap.Unfolds atom tree ids → (∀ id ∈ ids, after.record id = heap.record id) →
      after.Unfolds atom tree ids
  | .leaf noHandle, _ => .leaf noHandle
  | .list items, same => .list (items.congr same)
  | .member target field, same =>
      .member (target.congr fun id mem => same id (List.mem_append_left _ mem))
        (field.congr fun id mem => same id (List.mem_append_right _ mem))
  | .record literal noParent fields, same => by
      have here := same _ List.mem_cons_self
      have inside := fields.congr fun id mem => same id (List.mem_cons_of_mem _ mem)
      rw [← here] at literal noParent inside
      exact .record literal noParent inside

theorem UnfoldsItems.congr {heap after : Heap} {items : List Atom} {trees : List Tree}
    {ids : List RecordId} :
    heap.UnfoldsItems items trees ids → (∀ id ∈ ids, after.record id = heap.record id) →
      after.UnfoldsItems items trees ids
  | .nil, _ => .nil
  | .cons item items, same =>
      .cons (item.congr fun id mem => same id (List.mem_append_left _ mem))
        (items.congr fun id mem => same id (List.mem_append_right _ mem))

theorem UnfoldsFields.congr {heap after : Heap} {fields : Fields} {trees : List (String × Tree)}
    {ids : List RecordId} :
    heap.UnfoldsFields fields trees ids → (∀ id ∈ ids, after.record id = heap.record id) →
      after.UnfoldsFields fields trees ids
  | .nil, _ => .nil
  | .cons value fields, same =>
      .cons (value.congr fun id mem => same id (List.mem_append_left _ mem))
        (fields.congr fun id mem => same id (List.mem_append_right _ mem))

end

/-- A heap after some records were added: each is new, and nothing else changed. -/
structure Adds (before after : Heap) (added : List RecordId) : Prop where
  once : added.Nodup
  new : ∀ id ∈ added, ¬ before.HasRecord id
  used : ∀ id ∈ added, after.HasRecord id
  keeps : before.Extends after

theorem Adds.none (heap : Heap) : heap.Adds heap [] :=
  ⟨List.nodup_nil, by simp, by simp, .refl heap⟩

theorem Adds.append {first second third : Heap} {added more : List RecordId}
    (begins : first.Adds second added) (goesOn : second.Adds third more) :
    first.Adds third (added ++ more) where
  once := by
    refine List.nodup_append.mpr ⟨begins.once, goesOn.once, ?_⟩
    rintro id early _ late rfl
    exact goesOn.new id late (begins.used id early)
  new id mem := by
    rcases List.mem_append.mp mem with early | late
    · exact begins.new id early
    · exact fun used => goesOn.new id late (begins.keeps.hasRecord id used)
  used id mem := by
    rcases List.mem_append.mp mem with early | late
    · exact goesOn.keeps.hasRecord id (begins.used id early)
    · exact goesOn.used id late
  keeps := begins.keeps.trans goesOn.keeps

/-- One more record, which refers to those that were added before it. -/
theorem Adds.allocRecord {before after : Heap} {added : List RecordId}
    (adds : before.Adds after added) (record : Record) :
    before.Adds (after.allocRecord record).2 ((after.allocRecord record).1 :: added) where
  once := List.nodup_cons.mpr
    ⟨fun mem => not_hasRecord_allocRecord after record (adds.used _ mem), adds.once⟩
  new id mem := by
    rcases List.mem_cons.mp mem with rfl | early
    · exact fun used => not_hasRecord_allocRecord after record (adds.keeps.hasRecord _ used)
    · exact adds.new id early
  used id mem := by
    rcases List.mem_cons.mp mem with rfl | early
    · exact hasRecord_allocRecord_iff.mpr (.inl rfl)
    · exact hasRecord_allocRecord_iff.mpr (.inr (adds.used id early))
  keeps := adds.keeps.trans (extends_allocRecord after record)

/-- A literal record unfolds as soon as it is in the heap, when its fields did before. -/
theorem UnfoldsFields.allocRecord {heap : Heap} {record : Record} {trees : List (String × Tree)}
    {ids : List RecordId} (unfolds : heap.UnfoldsFields record.fields trees ids)
    (literal : record.literal = true) (noParent : record.parent = none)
    (used : ∀ id ∈ ids, heap.HasRecord id) :
    (heap.allocRecord record).2.Unfolds (.record (heap.allocRecord record).1) (.record trees)
      ((heap.allocRecord record).1 :: ids) := by
  apply Unfolds.record <;> rw [record_allocRecord_self]
  · exact literal
  · exact noParent
  · exact unfolds.congr fun other mem => record_allocRecord_of_hasRecord (used other mem)

theorem UnfoldsFields.names_eq {heap : Heap} {fields : Fields} {trees : List (String × Tree)}
    {ids : List RecordId} (unfolds : heap.UnfoldsFields fields trees ids) :
    fields.names = trees.map Prod.fst := by
  induction fields generalizing trees ids with
  | nil =>
      cases unfolds
      rfl
  | cons field fields ih =>
      cases unfolds with
      | cons _ others => simp [ih others]

-- What unfolds into a tree is built again from the tree. Records are added from the inside out, so
-- what was built before stays as it is.
mutual

theorem Unfolds.rebuilt {heap : Heap} {atom : Atom} {tree : Tree} {ids : List RecordId} :
    heap.Unfolds atom tree ids → ∀ target : Heap, ∃ added,
      (tree.build target).2.Unfolds (tree.build target).1 tree added ∧
        target.Adds (tree.build target).2 added
  | .leaf noHandle, target => ⟨[], .leaf noHandle, .none target⟩
  | .list items, target => by
      obtain ⟨added, unfolds, adds⟩ := items.rebuilt target
      exact ⟨added, .list unfolds, adds⟩
  | @Unfolds.member _ _ _ _ targetTree _ _ _ first second, target => by
      obtain ⟨added, unfolds, adds⟩ := first.rebuilt target
      obtain ⟨more, unfolds', adds'⟩ := second.rebuilt (targetTree.build target).2
      refine ⟨added ++ more, .member (unfolds.congr fun id mem => ?_) unfolds', adds.append adds'⟩
      exact adds'.keeps.record id (adds.used id mem)
  | @Unfolds.record _ id trees _ _ _ fields, target => by
      obtain ⟨added, unfolds, adds⟩ := fields.rebuilt target
      let built := Tree.buildFields trees target
      let record := Record.emptyLiteral.insertAll built.1
      have stored : record.fields = built.1 := by
        refine Record.fields_insertAll .emptyLiteral (show built.1.names.Nodup from ?_)
        rw [unfolds.names_eq, ← fields.names_eq]
        exact (heap.record id).distinct
      rw [← stored] at unfolds
      refine ⟨_, unfolds.allocRecord ?_ ?_ adds.used, adds.allocRecord record⟩
      · exact Record.literal_insertAll _ _
      · exact Record.parent_insertAll _ _

theorem UnfoldsItems.rebuilt {heap : Heap} {items : List Atom} {trees : List Tree}
    {ids : List RecordId} :
    heap.UnfoldsItems items trees ids → ∀ target : Heap, ∃ added,
      (Tree.buildItems trees target).2.UnfoldsItems (Tree.buildItems trees target).1 trees added ∧
        target.Adds (Tree.buildItems trees target).2 added
  | .nil, target => ⟨[], .nil, .none target⟩
  | @UnfoldsItems.cons _ _ _ tree _ _ _ item items, target => by
      obtain ⟨added, unfolds, adds⟩ := item.rebuilt target
      obtain ⟨more, unfolds', adds'⟩ := items.rebuilt (tree.build target).2
      refine ⟨added ++ more, .cons (unfolds.congr fun id mem => ?_) unfolds', adds.append adds'⟩
      exact adds'.keeps.record id (adds.used id mem)

theorem UnfoldsFields.rebuilt {heap : Heap} {fields : Fields} {trees : List (String × Tree)}
    {ids : List RecordId} :
    heap.UnfoldsFields fields trees ids → ∀ target : Heap, ∃ added,
      (Tree.buildFields trees target).2.UnfoldsFields
        (Tree.buildFields trees target).1 trees added ∧
        target.Adds (Tree.buildFields trees target).2 added
  | .nil, target => ⟨[], .nil, .none target⟩
  | @UnfoldsFields.cons _ _ _ _ tree _ _ _ value fields, target => by
      obtain ⟨added, unfolds, adds⟩ := value.rebuilt target
      obtain ⟨more, unfolds', adds'⟩ := fields.rebuilt (tree.build target).2
      refine ⟨added ++ more, .cons (unfolds.congr fun id mem => ?_) unfolds', adds.append adds'⟩
      exact adds'.keeps.record id (adds.used id mem)

end

/-! ## Reading the text of an atom -/

/-- The text of a printable atom is a program that is read as the tree of the atom. -/
theorem Unfolds.program_print {heap : Heap} {atom : Atom} {tree : Tree} {ids : List RecordId}
    (unfolds : heap.Unfolds atom tree ids) (once : ids.Nodup)
    (printable : tree.isPrintable = true) :
    Grammar.Program (heap.print atom).toList tree := by
  rw [unfolds.toList_print once]
  exact Grammar.program_spelling (tree.isReadable_of_isPrintable printable)

/-- Reading the text of a printable atom succeeds in any heap. It gives an atom that unfolds into
the same tree, so it has the same modifiers, leaves and lists, and literal records with the same
names in the same order and the same values. Its literal records are new, and nothing else in the
heap changes. -/
theorem read_print (heap target : Heap) (name : String) {atom : Atom}
    (printable : heap.Printable atom) :
    ∃ copy after, (Source.mk name (heap.print atom)).read target = (.ok copy, after) ∧
      ∃ tree ids added, heap.Unfolds atom tree ids ∧ after.Unfolds copy tree added ∧
        target.Adds after added := by
  obtain ⟨tree, ids, unfolds, once, isPrintable⟩ := printable
  obtain ⟨added, unfolds', adds⟩ := unfolds.rebuilt target
  exact ⟨_, _, Source.read_of_program (unfolds.program_print once isPrintable),
    tree, ids, added, unfolds, unfolds', adds⟩

/-- A quoted list with a forced chain of accesses, a literal record and a negative decimal. -/
theorem read_print_quoted_list :
    let heap := (Heap.empty.allocRecord (Record.emptyLiteral.insert "x" (.string "a\n"))).2
    let atom : Atom := .list .quote
      [.member .evaluate (.member .plain (.token "f") (.leaf .quote (.token "-"))) (.ofList []),
        .record ⟨0⟩, .decimal .negativeZero]
    heap.Printable atom ∧
      ∃ copy after, (Source.mk "text" (heap.print atom)).read .empty = (.ok copy, after) ∧
        ∃ tree ids added, heap.Unfolds atom tree ids ∧ after.Unfolds copy tree added ∧
          Heap.empty.Adds after added := by
  intro heap atom
  have printable : heap.Printable atom := by
    have fields : (heap.record ⟨0⟩).fields = [("x", .string "a\n")] := rfl
    have inside : heap.UnfoldsFields (heap.record ⟨0⟩).fields
        [("x", .leaf .plain (.string "a\n"))] [] := by
      rw [fields]
      exact .cons (.leaf rfl) .nil
    refine ⟨_, _, .list (.cons (.member (.member (.leaf rfl) (.leaf rfl)) (.list .nil))
      (.cons (.record rfl rfl inside) (.cons (.leaf rfl) .nil))), by simp, ?_⟩
    decide
  exact ⟨printable, read_print heap .empty "text" printable⟩

end Heap

end RecordLisp
