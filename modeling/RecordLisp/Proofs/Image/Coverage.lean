import RecordLisp.Proofs.Image.Lists

/-!
# Nothing is dropped from an image

The search behind an image does not look into quoted lists, but the expression of a list is built
from those of its items all the same. A function that stands only there would have no number, and
would be written as nil. No program can put one there: a modifier comes from source text, and what
source text has in a list are literal records at most. This holds at every moment of a session, and
of all the atoms that come up on the way: those that are read, their parts, what is stored, and the
values of evaluations however they are bounded.
-/

namespace RecordLisp

open Effect

namespace Atom

theorem Within.mem_objects {atom : Atom} {modifier : Modifier} {value : Leaf} {handle : Handle}
    (within : (Atom.leaf modifier value).Within atom) (held : value.handle? = some handle) :
    handle ∈ atom.objects := by
  induction within with
  | here => simp [objects, handles, held]
  | item mem _ ih =>
      rw [objects_list]
      exact mem_handlesOfList.mpr ⟨_, mem, ih⟩
  | target _ ih => exact List.mem_append_left _ ih
  | field _ ih => exact List.mem_append_right _ ih

end Atom

namespace Heap

variable {heap : Heap} {atom part : Atom}

/-- What stands in a marked list. -/
theorem Marked.isLiteral_of_within (marked : heap.Marked atom) {modifier mark : Modifier}
    {items : List Atom} (within : (Atom.list modifier items).Within atom)
    (isMarked : modifier ≠ .plain) {item : Atom} (mem : item ∈ items) {value : Leaf}
    (inside : (Atom.leaf mark value).Within item) {handle : Handle}
    (held : value.handle? = some handle) : heap.IsLiteral handle := by
  obtain _ | ⟨_, literal⟩ | _ := marked.within within
  have found : handle ∈ (Atom.list modifier items).objects :=
    (Atom.Within.item mem inside).mem_objects held
  exact literal.resolve_left isMarked handle (Atom.objects_list modifier items ▸ found)

end Heap

/-- In every session that sources lead to, also while a program runs: a list with a modifier,
anywhere in an atom at hand, in a field of a record or in the body of a function, has no functions
and only literal records in it. So every function and every record other than a literal one that
stands in a value of a numbered record has a number itself, whatever record the image is of, and no
function is written as nil. -/
theorem Session.image_covers {config : Config} {packs : List Pack} {session : Session}
    {atoms : List Atom} (standard : ∀ entry ∈ packs.flatten, entry ∈ Pack.standard)
    (reached : Session.Reached Session.Meets config packs session atoms) :
    let heap := session.heap
    (∀ atom, (atom ∈ atoms ∨ (∃ id, heap.HasRecord id ∧ atom ∈ (heap.record id).values) ∨
        ∃ id, heap.HasClosure id ∧ atom = (heap.closure id).body) →
      ∀ modifier items, (Atom.list modifier items).Within atom → modifier ≠ .plain →
        ∀ item ∈ items, ∀ mark value, (Atom.leaf mark value).Within item →
          (∀ id, value ≠ .function id) ∧
          ∀ id, value = .record id → (heap.record id).literal = true) ∧
    ∀ root, heap.HasRecord root →
      let image := Image.ofRoot heap root
      ∀ id ∈ image.records, ∀ value ∈ (heap.record id).values, ∀ mark,
        (∀ inner, (Atom.leaf mark (.record inner)).Within value →
          (heap.record inner).literal = true ∨ ∃ number, image.recordNumber? inner = some number) ∧
        ∀ inner, (Atom.leaf mark (.function inner)).Within value →
          ∃ number, image.functionNumber? inner = some number ∧
            image.leafExpression (.function inner) = .ok (Image.functionReference number) := by
  intro heap
  have carries := reached.isMarked standard
  have kept : heap.IsMarked := carries.heap
  constructor
  · intro atom stands modifier items within isMarked item mem mark value inside
    have marked : heap.Marked atom := by
      rcases stands with mem | ⟨id, used, mem⟩ | ⟨id, used, rfl⟩
      · exact carries.given atom mem
      · exact kept.value id used atom mem
      · exact kept.body id used
    have literal {handle : Handle} : value.handle? = some handle → heap.IsLiteral handle :=
      marked.isLiteral_of_within within isMarked mem inside
    constructor
    · rintro id rfl
      exact literal rfl
    · rintro id rfl
      exact (literal rfl).2
  · intro root used image id saved value held mark
    obtain ⟨-, covered⟩ := kept.numbers_or_isLiteral used saved held
    constructor
    · intro inner within
      rcases covered _ (within.mem_objects rfl) with numbered | literal
      · obtain ⟨number, found, -⟩ := Image.exists_recordNumber numbered
        exact .inr ⟨number, found⟩
      · exact .inl literal.2
    · intro inner within
      obtain ⟨number, found, -⟩ :=
        Image.exists_functionNumber
          ((covered _ (within.mem_objects rfl)).resolve_right False.elim)
      exact ⟨number, found, by rw [Image.leafExpression, found]⟩

/-- A function whose body is a quoted list with a record literal. -/
theorem Session.image_covers_body :
    ∃ session id inner, Session.create .standard [] .empty .least = .ok session ∧
      let after := (session.perform (SessionM.runText "(set @ f (func (x) '([(k x)] y)))")).2
      after.global? "f" = some (.function id) ∧ after.heap.HasClosure id ∧
      (after.heap.closure id).body.modifier = .quote ∧
      (Atom.record inner).Within (after.heap.closure id).body ∧
      (after.heap.record inner).literal = true ∧
      ∃ number, (Image.ofRoot after.heap after.global).functionNumber? id = some number := by
  have checked : ((Session.create .standard [] .empty .least).toOption.bind fun session =>
      let after := (session.perform (SessionM.runText "(set @ f (func (x) '([(k x)] y)))")).2
      (after.global? "f").bind fun stored => stored.function?.bind fun id =>
        (after.heap.closure id).body.list?.bind fun items => items.head?.bind fun item =>
          item.record?.map fun _ =>
            (stored.modifier, item.modifier, (after.heap.closure id).body.modifier)) =
      some (.plain, .plain, .quote) := by
    decide +kernel
  obtain ⟨session, created, checked⟩ := Option.bind_eq_some_iff.mp checked
  have created := eq_ok_of_toOption created
  have standard : ∀ entry ∈ ([] : List Pack).flatten, entry ∈ Pack.standard := nofun
  have reached := Session.Reached.runText (.create created : Session.Reached Session.Meets _ [] _ _)
    "(set @ f (func (x) '([(k x)] y)))"
  refine ⟨session, ?_⟩
  -- From here on only what was checked is known of the session, which is a long computation.
  dsimp only at checked ⊢
  generalize (session.perform (SessionM.runText "(set @ f (func (x) '([(k x)] y)))")).2 = after
    at checked reached ⊢
  obtain ⟨stored, found, checked⟩ := Option.bind_eq_some_iff.mp checked
  obtain ⟨id, isFunction, checked⟩ := Option.bind_eq_some_iff.mp checked
  obtain ⟨items, isList, checked⟩ := Option.bind_eq_some_iff.mp checked
  obtain ⟨item, isFirst, checked⟩ := Option.bind_eq_some_iff.mp checked
  obtain ⟨inner, isRecord, checked⟩ := Option.map_eq_some_iff.mp checked
  simp only [Prod.mk.injEq] at checked
  obtain ⟨plain, plainItem, quoted⟩ := checked
  obtain rfl : stored = .function id := by
    cases stored with
    | leaf modifier value =>
        obtain rfl : modifier = .plain := plain
        cases value <;> cases isFunction
        rfl
    | list | member => cases isFunction
  obtain rfl : item = .record inner := by
    cases item with
    | leaf modifier value =>
        obtain rfl : modifier = .plain := plainItem
        cases value <;> cases isRecord
        rfl
    | list | member => cases isRecord
  have isBody : (after.heap.closure id).body = .list .quote items := by
    generalize (after.heap.closure id).body = body at isList quoted
    cases body with
    | list modifier _ =>
        obtain rfl : modifier = .quote := quoted
        cases isList
        rfl
    | leaf | member => cases isList
  have mem := List.mem_of_mem_head? (Option.mem_def.mpr isFirst)
  have within : (Atom.record inner).Within (after.heap.closure id).body := isBody ▸ .item mem .here
  have kept := reached.isMarked standard
  have global := Heap.marked_record.mp kept.global
  have stands : Atom.function id ∈ (after.heap.record after.global).values :=
    Record.mem_values_of_get? found
  have used : after.heap.HasClosure id :=
    Heap.marked_function.mp (kept.heap.value _ global _ stands)
  obtain ⟨marked, covered⟩ := Session.image_covers standard reached
  have literal :=
    (marked _ (.inr (.inr ⟨id, used, rfl⟩)) .quote items (isBody ▸ .here) (by decide) _ mem
      .plain _ .here).2
    inner rfl
  obtain ⟨number, numbered, -⟩ := (covered after.global global after.global
    (List.mem_of_mem_head? (Image.head?_records _ _)) _ stands .plain).2 id .here
  exact ⟨id, inner, created, found, used, quoted, within, literal, number, numbered⟩

end RecordLisp
