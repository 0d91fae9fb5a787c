import RecordLisp.Proofs.Eval.Core
import RecordLisp.Proofs.Image.Verbatim

/-!
# Literal records in an image

A literal record has no number. It is written where it stands, as it prints, and what is read there
is the same literal record again. But the program of an image is evaluated, and evaluating a literal
record makes a live one of the values of its fields. For data that does no harm: numbers and texts
are their own values, quoted atoms come back without the quote mark and records inside as live
records. `Heap.Live` says so of a value and the tree that it comes from. Where a field holds a
variable or a call, as in quoted code it may, the new record holds what that gives, if anything.
-/

namespace RecordLisp

open EvalM

mutual

/-- Whether a tree is evaluated without a variable or a call. -/
def Tree.isData : Tree → Bool
  | .leaf modifier (.token _) => modifier == .quote
  | .leaf _ _ => true
  | .list modifier _ | .member modifier _ _ => modifier == .quote
  | .record fields => Tree.fieldsAreData fields

/-- Whether the values of fields are evaluated without a variable or a call. -/
def Tree.fieldsAreData : List (String × Tree) → Bool
  | [] => true
  | (_, value) :: fields => value.isData && Tree.fieldsAreData fields

end

namespace Heap

mutual

/-- A value with the contents of a tree of data, and the live records in it. A record literal stands
for a live record without a parent, with the same names in the same order; anything else comes back
without its modifier, and the literal records inside it are in use. -/
inductive Live (heap : Heap) : Tree → Atom → List RecordId → Prop where
  | data {tree : Tree} {atom : Atom} {ids : List RecordId} : (∀ fields, tree ≠ .record fields) →
      heap.Unfolds atom tree ids → (∀ id ∈ ids, heap.HasRecord id) → Live heap tree atom.unmarked []
  | record {id : RecordId} {trees : List (String × Tree)} {ids : List RecordId} :
      heap.HasRecord id → (heap.record id).literal = false → (heap.record id).parent = none →
      LiveFields heap trees (heap.record id).fields ids →
      Live heap (.record trees) (.record id) (id :: ids)

/-- Fields with the contents of the entries of a record literal. -/
inductive LiveFields (heap : Heap) : List (String × Tree) → Fields → List RecordId → Prop where
  | nil : LiveFields heap [] [] []
  | cons {name : String} {tree : Tree} {value : Atom} {trees : List (String × Tree)}
      {fields : Fields} {valueIds ids : List RecordId} :
      Live heap tree value valueIds → LiveFields heap trees fields ids →
      LiveFields heap ((name, tree) :: trees) ((name, value) :: fields) (valueIds ++ ids)

end

variable {heap after base : Heap}

-- One case for each way to be live. All that is looked at is in use, and stays as it is.
mutual

theorem Live.extend (extends' : heap.Extends after) :
    ∀ {tree : Tree} {value : Atom} {ids : List RecordId},
    heap.Live tree value ids → after.Live tree value ids
  | _, _, _, .data noRecord unfolds used =>
      .data noRecord (unfolds.congr fun id mem => extends'.record id (used id mem))
        fun id mem => extends'.hasRecord id (used id mem)
  | _, _, _, .record used live noParent fields => by
      have same := extends'.record _ used
      rw [← same] at live noParent fields
      exact .record (extends'.hasRecord _ used) live noParent (fields.extend extends')

theorem LiveFields.extend (extends' : heap.Extends after) : ∀ {trees : List (String × Tree)}
    {fields : Fields} {ids : List RecordId}, heap.LiveFields trees fields ids →
      after.LiveFields trees fields ids
  | _, _, _, .nil => .nil
  | _, _, _, .cons value fields => .cons (value.extend extends') (fields.extend extends')

end

theorem LiveFields.names_eq {trees : List (String × Tree)} {fields : Fields} {ids : List RecordId}
    (live : heap.LiveFields trees fields ids) : fields.names = trees.map Prod.fst := by
  induction trees generalizing fields ids with
  | nil =>
      cases live
      rfl
  | cons tree trees ih =>
      cases live with
      | cons _ others => simp [ih others]

end Heap

/-! ## Evaluation of data -/

namespace Registry

variable {registry : Registry} {keep base : Heap} {fuel : Nat} {scope : RecordId} {heap : Heap}

/-- Whatever is no record and is evaluated without a variable or a call is its own value, without
its modifier. -/
theorem evaluates_data {atom : Atom} {tree : Tree} {ids : List RecordId}
    (unfolds : heap.Unfolds atom tree ids) (noRecord : ∀ fields, tree ≠ .record fields)
    (data : tree.isData = true) :
    Does keep (registry.eval (fuel + 1) atom) scope heap atom.unmarked heap := by
  by_cases quoted : atom.modifier = .quote
  · exact evaluates_quoted quoted
  · cases unfolds with
    | record _ _ _ => exact absurd rfl (noRecord _)
    | list _ => exact absurd (beq_iff_eq.mp data) quoted
    | member _ _ => exact absurd (beq_iff_eq.mp data) quoted
    | @leaf modifier value noHandle =>
        apply does_tick.bind
        rw [if_neg quoted]
        cases value with
        | token name => exact absurd (beq_iff_eq.mp data) quoted
        | record | function => cases noHandle
        | nil | integer | decimal | string => exact does_pure _

theorem exists_live_of_data {atom : Atom} {tree : Tree} {ids : List RecordId}
    (unfolds : base.Unfolds atom tree ids) (noRecord : ∀ fields, tree ≠ .record fields)
    (used : ∀ id ∈ ids, base.HasRecord id) (data : tree.isData = true) (deep : ids.length < fuel)
    (keeps : base.Keeps heap) :
    ∃ value after added, Does keep (registry.eval fuel atom) scope heap value after ∧
      after.Live tree value added ∧ heap.Adds after added := by
  obtain ⟨fuel, rfl⟩ := Nat.exists_eq_add_one.mpr (Nat.zero_lt_of_lt deep)
  have here := unfolds.congr fun id mem => keeps.record id (used id mem)
  refine ⟨atom.unmarked, heap, [], evaluates_data here noRecord data, ?_, .none heap⟩
  exact .data noRecord here fun id mem => keeps.hasRecord id (used id mem)

-- The records inside one another are among the handles, so one level of fuel more than there are
-- handles suffices. Fields are evaluated one after the other, and what the first gave stays as it
-- is.
mutual

/-- The value of data is live: its records are new, and nothing else changes. -/
theorem evaluates_live : ∀ {atom : Atom} {tree : Tree} {ids : List RecordId},
    base.Unfolds atom tree ids → (∀ id ∈ ids, base.HasRecord id) → tree.isData = true →
      ∀ {fuel : Nat}, ids.length < fuel → ∀ {heap : Heap}, base.Keeps heap →
        ∃ value after added, Does keep (registry.eval fuel atom) scope heap value after ∧
          after.Live tree value added ∧ heap.Adds after added
  | _, _, _, .leaf noHandle, used, data, _, deep, _, keeps =>
      exists_live_of_data (.leaf noHandle) nofun used data deep keeps
  | _, _, _, .list items, used, data, _, deep, _, keeps =>
      exists_live_of_data (.list items) nofun used data deep keeps
  | _, _, _, .member target field, used, data, _, deep, _, keeps =>
      exists_live_of_data (.member target field) nofun used data deep keeps
  | _, _, _, @Heap.Unfolds.record _ id trees ids _ _ fields, used, data, fuel, deep, heap,
      keeps => by
      obtain ⟨fuel, rfl⟩ := Nat.exists_eq_add_one.mpr (Nat.zero_lt_of_lt deep)
      obtain ⟨usedHere, usedInside⟩ := List.forall_mem_cons.mp used
      obtain ⟨values, middle, added, does, live, adds⟩ :=
        evaluates_liveFields fields usedInside data (by simpa using deep) keeps
      let record := Record.empty.insertAll values
      have stored : record.fields = values := by
        refine Record.fields_insertAll .empty (show values.names.Nodup from ?_)
        rw [live.names_eq, ← fields.names_eq]
        exact (base.record id).distinct
      have self := Heap.record_allocRecord_self middle record
      refine ⟨.record (middle.allocRecord record).1, (middle.allocRecord record).2, _ :: added,
        ?_, ?_, adds.allocRecord record⟩
      · apply does_tick.bind
        change Does keep (Evaluator.record _ id) scope heap _ _
        apply does_heap.bind
        rw [keeps.record id usedHere]
        exact does.bind ((does_allocRecord record).map _)
      · refine .record (Heap.hasRecord_allocRecord_iff.mpr (.inl rfl)) ?_ ?_ ?_
        · rw [self]
          exact Record.literal_insertAll _ _
        · rw [self]
          exact Record.parent_insertAll _ _
        · rw [self, stored]
          exact live.extend (Heap.extends_allocRecord middle record)

theorem evaluates_liveFields :
    ∀ {fields : Fields} {trees : List (String × Tree)} {ids : List RecordId},
    base.UnfoldsFields fields trees ids → (∀ id ∈ ids, base.HasRecord id) →
      Tree.fieldsAreData trees = true → ∀ {fuel : Nat}, ids.length < fuel → ∀ {heap : Heap},
        base.Keeps heap → ∃ values after added,
          Does keep (Evaluator.fields ⟨registry.eval fuel, fuel⟩ fields) scope heap values after ∧
            after.LiveFields trees values added ∧ heap.Adds after added
  | _, _, _, .nil, _, _, _, _, heap, _ => ⟨[], heap, [], does_mapM_nil _, .nil, .none heap⟩
  | _, _, _, @Heap.UnfoldsFields.cons _ name _ _ _ _ firstIds otherIds value fields, used, data,
      fuel, deep, heap, keeps => by
      obtain ⟨usedFirst, usedOthers⟩ := List.forall_mem_append.mp used
      obtain ⟨dataFirst, dataOthers⟩ := Bool.and_eq_true_iff.mp data
      rw [List.length_append] at deep
      have deepFirst : firstIds.length < fuel := by omega
      have deepOthers : otherIds.length < fuel := by omega
      obtain ⟨first, middle, added, does, live, adds⟩ :=
        evaluates_live value usedFirst dataFirst deepFirst keeps
      obtain ⟨others, after, more, doesOthers, liveOthers, addsMore⟩ :=
        evaluates_liveFields fields usedOthers dataOthers deepOthers (keeps.trans adds.keeps.keeps)
      refine ⟨(name, first) :: others, after, added ++ more, ?_, ?_, adds.append addsMore⟩
      · exact does_mapM_cons (does.map _) doesOthers
      · exact .cons (live.extend addsMore.keeps) liveOthers

end

end Registry

/-! ## Records written where they stand -/

namespace Image

/-- A record without a number is written as it prints, when that is read back. -/
theorem expression_of_inline {image : Image} {id : RecordId} {modifier : Modifier} {text : String}
    (inline : image.recordNumber? id = none)
    (expressed : image.expression (.leaf modifier (.record id)) = .ok text) :
    image.verbatim (.record id) = true ∧ text = image.heap.print (.record id) := by
  rw [expression, leafExpression, inline] at expressed
  dsimp only at expressed
  split at expressed
  · rename_i verbatim
    exact ⟨verbatim, (Except.ok.inj expressed).symm⟩
  · cases expressed

/-- The expression that an image writes for a record without a number, if any, stands for a tree:
the entries of the record and of the literal records inside it. When these are data and no record
stands in it twice, the text is read in any heap. Whenever what was read is evaluated from then on,
with more fuel than reading added records, the value is a live record of the same contents. It is
new, as are the live records inside it, and nothing that was there before is changed. -/
theorem inline_record_is_live (image : Image) {id : RecordId} {modifier : Modifier} {text : String}
    (inline : image.recordNumber? id = none)
    (expressed : image.expression (.leaf modifier (.record id)) = .ok text)
    (isShaped : image.isSourceShaped (.record id) = true) :
    ∃ trees ids, image.heap.orphaned.Unfolds (.record id) (.record trees) ids ∧
      (ids.Nodup → Tree.fieldsAreData trees = true → ∀ (target : Heap) (name : String),
        ∃ code read made,
        (Source.mk name text).read target = (.ok code, read) ∧ target.Adds read made ∧
          ∀ (registry : Registry) (keep : Heap) (fuel : Nat) (scope : RecordId) (heap : Heap),
            made.length < fuel → read.Keeps heap → ∃ copy after added,
              Does keep (registry.eval fuel code) scope heap (.record copy) after ∧
                after.Live (.record trees) (.record copy) added ∧ heap.Adds after added) := by
  obtain ⟨verbatim, rfl⟩ := expression_of_inline inline expressed
  obtain ⟨tree, ids, unfolds, readable⟩ := Heap.readable_of_verbatim
    (Heap.readable_of_verbatimRecord _) (.record id) verbatim isShaped
  obtain ⟨trees, rfl⟩ : ∃ trees, tree = .record trees := by
    cases unfolds with
    | leaf noHandle => cases noHandle
    | record _ _ _ => exact ⟨_, rfl⟩
  refine ⟨trees, ids, unfolds, fun once data target name => ?_⟩
  obtain ⟨made, rebuilt, adds⟩ := unfolds.rebuilt target
  have isProgram : Grammar.Program (image.heap.print (.record id)).toList (.record trees) := by
    rw [← Heap.print_orphaned, unfolds.toList_print once]
    exact Grammar.program_spelling readable
  refine ⟨_, _, made, Source.read_of_program isProgram, adds, ?_⟩
  intro registry keep fuel scope heap deep keeps
  obtain ⟨value, after, added, does, live, addsLive⟩ :=
    Registry.evaluates_live rebuilt adds.used data deep keeps
  obtain ⟨copy, rfl⟩ : ∃ copy, value = .record copy := by
    cases live with
    | data noRecord _ _ => exact absurd rfl (noRecord trees)
    | record _ _ _ _ => exact ⟨_, rfl⟩
  exact ⟨copy, after, added, does, live, addsLive⟩

/-- A quoted list and a literal record in a literal record. -/
theorem inline_record_is_live_nested :
    let inner := Record.emptyLiteral.insert "z" (.string "t")
    let outer :=
      (Record.emptyLiteral.insert "x" (.list .quote [.token "a"])).insert "y" (.record ⟨0⟩)
    let image : Image :=
      ⟨.empty, ((Heap.empty.allocRecord inner).2.allocRecord outer).2, Numbering.coherent_empty⟩
    ∃ text trees code read copy after added, image.expression (.record ⟨1⟩) = .ok text ∧
      (Source.mk "text" text).read .empty = (.ok code, read) ∧
      Does read (Registry.empty.eval (read.records.size + 1) code) ⟨0⟩ read (.record copy) after ∧
      after.Live (.record trees) (.record copy) added ∧ read.Adds after added := by
  intro inner outer image
  have verbatim : image.verbatim (.record ⟨1⟩) = true := by decide +kernel
  have isShaped : image.isSourceShaped (.record ⟨1⟩) = true := by decide +kernel
  have expressed : image.expression (.record ⟨1⟩) = .ok (image.heap.print (.record ⟨1⟩)) := by
    rw [expression, leafExpression]
    exact if_pos verbatim
  obtain ⟨trees, ids, unfolds, lives⟩ := inline_record_is_live image rfl expressed isShaped
  have storedOuter : (image.heap.orphaned.record ⟨1⟩).fields =
      [("x", .list .quote [.token "a"]), ("y", .record ⟨0⟩)] := by
    rw [Heap.record_orphaned]
    rfl
  have storedInner : (image.heap.orphaned.record ⟨0⟩).fields = [("z", .string "t")] := by
    rw [Heap.record_orphaned]
    rfl
  have known : ids.Nodup ∧ Tree.fieldsAreData trees = true := by
    rcases unfolds with ⟨noHandle⟩ | _ | _ | ⟨_, _, fields⟩
    rw [storedOuter] at fields
    rcases fields with _ | ⟨_ | ⟨_ | ⟨⟨_⟩, ⟨⟩⟩⟩, _ | ⟨⟨noHandle⟩ | _ | _ | ⟨_, _, fields⟩, ⟨⟩⟩⟩
    · cases noHandle
    · rw [storedInner] at fields
      rcases fields with _ | ⟨⟨_⟩, ⟨⟩⟩
      decide
  obtain ⟨code, read, made, isRead, adds, evaluates⟩ := lives known.1 known.2 .empty "text"
  have few : made.length ≤ read.records.size :=
    Heap.length_le_of_inRange adds.once fun id mem => (adds.used id mem).1
  obtain ⟨copy, after, added, does, live, addsLive⟩ :=
    evaluates .empty read (read.records.size + 1) ⟨0⟩ read (Nat.lt_succ_of_le few) (.refl read)
  exact ⟨_, trees, code, read, copy, after, added, expressed, isRead, does, live, addsLive⟩

end Image

/-- A field that holds a literal record with a variable is written, and what was written cannot be
loaded: the variable is evaluated. -/
theorem Session.inline_record_variable :
    ∃ session stored text, Session.create .standard [] .empty .least = .ok session ∧
      let before := (session.perform (SessionM.runText "(set @ r (index-get '([(k x)]) 0))")).2
      before.global? "r" = some (.record stored) ∧ (before.heap.record stored).literal = true ∧
      (Image.ofRoot before.heap before.global).recordNumber? stored = none ∧
      before.save = .ok text ∧
      (before.perform (SessionM.load text)).1 = .error (.eval (.undefinedVariable "x")) := by
  have rejected : ((Session.create .standard [] .empty .least).toOption.bind fun session =>
      let before := (session.perform (SessionM.runText "(set @ r (index-get '([(k x)]) 0))")).2
      (before.global? "r").bind fun value => value.record?.bind fun stored =>
        before.save.toOption.map fun text =>
          ((value.modifier, (before.heap.record stored).literal,
            (Image.ofRoot before.heap before.global).recordNumber? stored),
            match (before.perform (SessionM.load text)).1 with
            | .ok _ => none
            | .error error => some error)) =
      some ((.plain, true, none), some (.eval (.undefinedVariable "x"))) := by
    decide +kernel
  obtain ⟨session, created, rejected⟩ := Option.bind_eq_some_iff.mp rejected
  refine ⟨session, ?_⟩
  dsimp only at rejected ⊢
  generalize (session.perform (SessionM.runText "(set @ r (index-get '([(k x)]) 0))")).2 = before
    at rejected ⊢
  obtain ⟨value, found, rejected⟩ := Option.bind_eq_some_iff.mp rejected
  obtain ⟨stored, isRecord, rejected⟩ := Option.bind_eq_some_iff.mp rejected
  obtain ⟨text, saved, rejected⟩ := Option.map_eq_some_iff.mp rejected
  simp only [Prod.mk.injEq] at rejected
  obtain ⟨⟨plain, literal, inline⟩, stopped⟩ := rejected
  refine ⟨stored, text, eq_ok_of_toOption created, ?_, literal, inline, eq_ok_of_toOption saved, ?_⟩
  · cases value with
    | leaf modifier value =>
        cases value <;> cases isRecord
        cases plain
        exact found
    | list | member => cases isRecord
  · split at stopped
    · cases stopped
    · rename_i error same
      rw [same, Option.some.inj stopped]

end RecordLisp
