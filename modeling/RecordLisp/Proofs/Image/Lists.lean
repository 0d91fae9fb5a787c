import RecordLisp.Proofs.Image.Acceptance
import RecordLisp.Proofs.Session.Marks

/-!
# Lists in an image

A list is written in one of two ways. It is quoted as a whole when nothing in it has a number and it
is read back as it prints; otherwise it is built from the expressions of its items, and so on
inside. Either way the items come back in order and the numbered objects as their copies. But only
the first way keeps the modifiers of the items: an item that is evaluated comes back without its
own. `Image.written` is the value that does come back, and `Image.keepsMarks` says when it is the
list itself.

For the objects in a list to come back they must have numbers, although the search behind an image
does not look into marked lists. In what programs can build there is nothing to find there.
-/

namespace RecordLisp

open Effect

namespace Image

variable {image : Image}

/-- Whether a list with some items is quoted as a whole. -/
def quotes (image : Image) (items : List Atom) : Bool :=
  !image.anyHoldsNumbered items && image.verbatim (.ofList items)

theorem expression_list (image : Image) (modifier : Modifier) (items : List Atom) :
    image.expression (.list modifier items) =
      if image.quotes items then .ok ("'" ++ image.heap.print (.ofList items))
      else do return "(list" ++ (← image.expressions items) ++ ")" := by
  rw [expression]
  rfl

mutual

/-- The value of the expression that an image writes for an atom, apart from new objects: the atom
without its modifier, and the items of a list that is built from them likewise. -/
def written (image : Image) : Atom → Atom
  | .leaf _ value => .leaf .plain value
  | .list _ items => .ofList (if image.quotes items then items else image.writtenItems items)
  | .member _ target field => .member .plain target field

/-- The values of the expressions that an image writes for the items of a list. -/
def writtenItems (image : Image) : List Atom → List Atom
  | [] => []
  | item :: items => image.written item :: image.writtenItems items

end

mutual

/-- Whether no list that is built from its items, at any depth, has an item with a modifier. -/
def keepsMarks (image : Image) : Atom → Bool
  | .leaf _ _ | .member _ _ _ => true
  | .list _ items => image.quotes items || image.areUnmarked items

/-- Whether some items have no modifiers, and neither have the items of the lists among them that
are built.
-/
def areUnmarked (image : Image) : List Atom → Bool
  | [] => true
  | item :: items => item.modifier == .plain && image.keepsMarks item && image.areUnmarked items

end

theorem modifier_written (image : Image) (atom : Atom) :
    (image.written atom).modifier = .plain := by
  cases atom <;> rfl

theorem unmarked_eq_iff {atom : Atom} : atom.unmarked = atom ↔ atom.modifier = .plain := by
  cases atom <;> simp [Atom.unmarked, Atom.withModifier, Atom.modifier, eq_comm]

mutual

/-- An atom is written as it is, apart from its own modifier, exactly when marks are kept. -/
theorem written_eq_unmarked_iff : ∀ atom : Atom,
    image.written atom = atom.unmarked ↔ image.keepsMarks atom = true
  | .leaf _ _ => by simp [written, keepsMarks, Atom.unmarked, Atom.withModifier]
  | .member _ _ _ => by simp [written, keepsMarks, Atom.unmarked, Atom.withModifier]
  | .list _ items => by
      rw [written, keepsMarks]
      cases quoted : image.quotes items with
      | true => simp [Atom.unmarked, Atom.withModifier]
      | false => simpa [Atom.unmarked, Atom.withModifier] using writtenItems_eq_iff items

theorem writtenItems_eq_iff : ∀ items : List Atom,
    image.writtenItems items = items ↔ image.areUnmarked items = true
  | [] => by simp [writtenItems, areUnmarked]
  | item :: items => by
      have first : image.written item = item ↔
          item.modifier = .plain ∧ image.keepsMarks item = true := by
        rw [← written_eq_unmarked_iff item]
        constructor
        · intro same
          have plain : item.modifier = .plain := same ▸ image.modifier_written item
          exact ⟨plain, same.trans (unmarked_eq_iff.mpr plain).symm⟩
        · rintro ⟨plain, same⟩
          exact same.trans (unmarked_eq_iff.mpr plain)
      rw [writtenItems, areUnmarked, List.cons.injEq, first, writtenItems_eq_iff items]
      simp [and_assoc]

end

/-! ## Values of the expressions -/

theorem isSavable_of_leafExpression {value : Leaf} {text : String}
    (written : image.leafExpression value = .ok text) : value.isSavable = true := by
  cases value with
  | nil | integer | record | function => rfl
  | decimal value =>
      rw [leafExpression, decimalLiteral] at written
      split at written
      · assumption
      · cases written
  | string text => simp [Leaf.isSavable, (stringLiteral_eq_ok written).1]
  | token name =>
      rw [leafExpression] at written
      split at written
      · rename_i lexes
        simp [Leaf.isSavable, lexes]
      · obtain ⟨literal, quoted, -⟩ := exists_ok_of_bind written
        simp [Leaf.isSavable, (stringLiteral_eq_ok quoted).1]

mutual

/-- The expression for an atom without chains has the atom as its value, up to the modifiers of
items of lists that are built. -/
theorem denotes_written (few : image.records.length < 2147483648)
    (fewFunctions : image.functions.length < 2147483648) : ∀ value : Atom,
      value.isChainless = true → value.isWellMarked = true →
      (∀ handle ∈ value.objects, image.Numbers handle) → ∀ {text : String},
        image.expression value = .ok text → image.Denotes text (image.written value)
  | .leaf _ value, _, _, numbered, text, expressed => by
      obtain ⟨text', same, denotes⟩ := exists_leafExpression few fewFunctions
        (isSavable_of_leafExpression expressed) fun handle found =>
          numbered handle (by simp [Atom.objects, Atom.handles, found])
      cases expressed.symm.trans same
      exact denotes
  | .list modifier items, chainless, marked, numbered, text, expressed => by
      rw [Atom.objects_list] at numbered
      rw [expression_list] at expressed
      rw [written]
      split at expressed
      · rename_i quoted
        obtain ⟨unnumbered, verbatim⟩ := Bool.and_eq_true_iff.mp quoted
        have closed := handlesOfList_of_not_anyHoldsNumbered items (fun id mem => numbered _ mem)
          (by simpa using unnumbered)
        cases expressed
        rw [if_pos quoted]
        exact denotes_quotedList chainless marked closed verbatim
      · rename_i built
        obtain ⟨inside, inner, same⟩ := exists_ok_of_bind expressed
        cases same
        rw [if_neg built]
        exact (denotesAll_written few fewFunctions items chainless marked numbered inner).list
  | .member _ _ _, chainless, _, _, _, _ => by cases chainless

theorem denotesAll_written (few : image.records.length < 2147483648)
    (fewFunctions : image.functions.length < 2147483648) : ∀ items : List Atom,
      Atom.areChainless items = true → Atom.areWellMarked items = true →
      (∀ handle ∈ Atom.objectsOfList items, image.Numbers handle) → ∀ {text : String},
        image.expressions items = .ok text → image.DenotesAll text (image.writtenItems items)
  | [], _, _, _, text, expressed => by
      cases expressed
      exact .nil
  | item :: items, chainless, marked, numbered, text, expressed => by
      obtain ⟨chainless, chainlessAll⟩ := Bool.and_eq_true_iff.mp chainless
      obtain ⟨marked, markedAll⟩ := Bool.and_eq_true_iff.mp marked
      obtain ⟨numbered, numberedAll⟩ := List.forall_mem_append.mp numbered
      rw [expressions] at expressed
      obtain ⟨one, here, expressed⟩ := exists_ok_of_bind expressed
      obtain ⟨more, behind, expressed⟩ := exists_ok_of_bind expressed
      cases expressed
      exact (denotesAll_written few fewFunctions items chainlessAll markedAll numberedAll
        behind).cons (denotes_written few fewFunctions item chainless marked numbered here)

end

end Image

/-! ## Lists that programs build -/

namespace Heap

variable {heap : Heap} {root : RecordId}

mutual

theorem isWellMarked_of_marked : ∀ atom : Atom, heap.Marked atom → atom.isChainless = true →
    atom.isWellMarked = true
  | .leaf _ _, .leaf _ allowed, _ => by simpa [Atom.isWellMarked] using allowed
  | .list _ items, .list inside _, chainless => areWellMarked_of_marked items inside chainless
  | .member _ _ _, _, chainless => by cases chainless

theorem areWellMarked_of_marked : ∀ items : List Atom, (∀ item ∈ items, heap.Marked item) →
    Atom.areChainless items = true → Atom.areWellMarked items = true
  | [], _, _ => rfl
  | item :: items, marked, chainless => by
      obtain ⟨marked, markedAll⟩ := List.forall_mem_cons.mp marked
      obtain ⟨chainless, chainlessAll⟩ := Bool.and_eq_true_iff.mp chainless
      rw [Atom.areWellMarked, isWellMarked_of_marked item marked chainless,
        areWellMarked_of_marked items markedAll chainlessAll]
      rfl

end

/-- The search behind an image stays among the objects in use. -/
theorem IsMarked.inUse_savedReferences (kept : heap.IsMarked) {handle next : Handle}
    (used : heap.InUse handle) (edge : next ∈ heap.savedReferences handle) : heap.InUse next := by
  obtain ⟨edge, -⟩ := List.mem_filter.mp edge
  cases handle with
  | record id =>
      rcases List.mem_append.mp edge with inValues | above
      · obtain ⟨value, mem, inside⟩ := List.mem_flatMap.mp inValues
        exact (kept.value id used value mem).inUse next inside
      · obtain ⟨parent, isParent, rfl⟩ := Option.map_eq_some_iff.mp (Option.mem_toList.mp above)
        exact kept.parent id used parent isParent
  | function id =>
      rcases List.mem_cons.mp edge with rfl | inside
      · exact kept.scope id used
      · exact (kept.body id used).inUse next inside

theorem IsMarked.inUse_of_reaches (kept : heap.IsMarked) (used : heap.HasRecord root)
    {handle : Handle}
    (reached : Reaches heap.savedReferences [.record root] handle) : heap.InUse handle := by
  induction reached with
  | root mem =>
      cases List.mem_singleton.mp mem
      exact used
  | step _ edge ih => exact kept.inUse_savedReferences ih edge

theorem IsMarked.hasSlot_of_reaches (kept : heap.IsMarked) (used : heap.HasRecord root)
    (handle : Handle)
    (reached : Reaches heap.savedReferences [.record root] handle) : heap.HasSlot handle :=
  (kept.inUse_of_reaches used reached).hasSlot

/-- Whatever a value of a numbered record refers to has a number or is a literal record: the search
has met it, since what it passes over in marked lists is literal. -/
theorem IsMarked.numbers_or_isLiteral (kept : heap.IsMarked) (used : heap.HasRecord root)
    {id : RecordId} {value : Atom} (saved : id ∈ (Image.ofRoot heap root).records)
    (held : value ∈ (heap.record id).values) :
    heap.Marked value ∧ ∀ handle ∈ value.objects,
      (Image.ofRoot heap root).Numbers handle ∨ heap.IsLiteral handle := by
  have met {handle : Handle} := @numbers_iff_reaches heap root (kept.hasSlot_of_reaches used) handle
  have reached : Reaches heap.savedReferences [.record root] (.record id) :=
    met.mp saved
  have marked := kept.value id (kept.inUse_of_reaches used reached) value held
  refine ⟨marked, fun handle mem => ?_⟩
  have searched : Modifier.isQuote .plain = false := rfl
  refine (marked.mem_handles_or_isLiteral searched handle mem).elim (fun found => ?_) .inr
  cases numbered : heap.isNumbered handle with
  | true =>
      refine .inl (met.mpr (.step reached ?_))
      exact List.mem_filter.mpr
        ⟨List.mem_append_left _ (List.mem_flatMap.mpr ⟨value, held, found⟩), numbered⟩
  | false =>
      cases handle with
      | record inner => exact .inr ⟨marked.inUse _ mem, by simpa [isNumbered] using numbered⟩
      | function inner => cases numbered

/-- A value of a numbered record without literal records refers to numbered objects only. -/
theorem IsMarked.numbers (kept : heap.IsMarked) (used : heap.HasRecord root) {id : RecordId}
    {value : Atom} (saved : id ∈ (Image.ofRoot heap root).records)
    (held : value ∈ (heap.record id).values)
    (live : ∀ inner, .record inner ∈ value.objects → (heap.record inner).literal = false) :
    heap.Marked value ∧ ∀ handle ∈ value.objects, (Image.ofRoot heap root).Numbers handle := by
  refine (kept.numbers_or_isLiteral used saved held).imp_right fun known handle mem => ?_
  refine (known handle mem).resolve_right ?_
  cases handle with
  | record inner =>
      rintro ⟨-, literal⟩
      rw [live inner mem] at literal
      cases literal
  | function inner => exact False.elim

end Heap

/-- In every session that sources lead to, also while a program runs: when a list in a field of a
numbered record, without chains and literal records at any depth, is written, the text is an
expression for a list with the same items in the same order and with copies of the numbered objects.
This is the list itself exactly when no list that is built from its items, rather than quoted, has
an item with a modifier. The two lists of copies that the names of the image are bound to can be any
of the right lengths. -/
theorem Session.list_written {config : Config} {packs : List Pack} {session : Session}
    {given : List Atom} (standard : ∀ entry ∈ packs.flatten, entry ∈ Pack.standard)
    (reached : Session.Reached Session.Meets config packs session given) {root : RecordId}
    (used : session.heap.HasRecord root) :
    let image := Image.ofRoot session.heap root
    (image.records.Nodup ∧ image.functions.Nodup) ∧
    ∀ id ∈ image.records, ∀ name modifier items,
      (name, .list modifier items) ∈ (session.heap.record id).fields →
      Atom.areChainless items = true →
      (∀ inner, .record inner ∈ Atom.objectsOfList items →
        (session.heap.record inner).literal = false) →
      image.records.length < 2147483648 → image.functions.length < 2147483648 →
      ∀ text, image.expression (.list modifier items) = .ok text →
        image.Denotes text (image.written (.list modifier items)) ∧
        (image.written (.list modifier items) = .ofList items ↔
          image.keepsMarks (.list modifier items) = true) := by
  intro image
  have kept := (reached.isMarked standard).heap
  refine ⟨image.nodup, ?_⟩
  intro id saved name modifier items field chainless live few fewFunctions text expressed
  have held : Atom.list modifier items ∈ (session.heap.record id).values :=
    List.mem_map.mpr ⟨_, field, rfl⟩
  rw [← Atom.objects_list modifier] at live
  obtain ⟨marked, numbered⟩ := kept.numbers used saved held live
  have wellMarked := Heap.isWellMarked_of_marked _ marked chainless
  have denotes := Image.denotes_written few fewFunctions (.list modifier items) chainless wellMarked
    numbered expressed
  exact ⟨denotes, Image.written_eq_unmarked_iff _⟩

/-- A live record beside quoted code: the list is built from its items, and the code inside is
quoted. -/
theorem Session.list_written_code :
    ∃ session stored text, Session.create .standard [] .empty .least = .ok session ∧
      let after := (session.perform (SessionM.runText "(set @ l (list @ '('a 1)))")).2
      let image := Image.ofRoot after.heap after.global
      after.global? "l" = some stored ∧ image.expression stored = .ok text ∧
      stored.list?.map image.quotes = some false ∧ image.Denotes text stored.unmarked := by
  have checked : ((Session.create .standard [] .empty .least).toOption.bind fun session =>
      let after := (session.perform (SessionM.runText "(set @ l (list @ '('a 1)))")).2
      let image := Image.ofRoot after.heap after.global
      (after.global? "l").bind fun stored => (image.expression stored).toOption.bind fun _ =>
        stored.list?.map fun items =>
          ((Atom.areChainless items, Atom.objectsOfList items, (after.heap.record ⟨0⟩).literal),
            (image.quotes items, image.keepsMarks stored), image.records.length,
            image.functions.length)) =
      some ((true, [.record ⟨0⟩], false), (false, true), 1, 0) := by
    decide +kernel
  obtain ⟨session, created, checked⟩ := Option.bind_eq_some_iff.mp checked
  have created := eq_ok_of_toOption created
  have standard : ∀ entry ∈ ([] : List Pack).flatten, entry ∈ Pack.standard := nofun
  have reached := Session.Reached.runText (.create created : Session.Reached Session.Meets _ [] _ _)
    "(set @ l (list @ '('a 1)))"
  refine ⟨session, ?_⟩
  -- From here on only what was checked is known of the session, which is a long computation.
  dsimp only at checked ⊢
  generalize (session.perform (SessionM.runText "(set @ l (list @ '('a 1)))")).2 = after
    at checked reached ⊢
  obtain ⟨stored, found, checked⟩ := Option.bind_eq_some_iff.mp checked
  obtain ⟨text, expressed, checked⟩ := Option.bind_eq_some_iff.mp checked
  obtain ⟨items, isList, checked⟩ := Option.map_eq_some_iff.mp checked
  simp only [Prod.mk.injEq] at checked
  obtain ⟨⟨chainless, objects, live⟩, ⟨built, keeps⟩, records, functions⟩ := checked
  have expressed := eq_ok_of_toOption expressed
  refine ⟨stored, text, created, found, expressed, by rw [isList, Option.map_some, built], ?_⟩
  obtain ⟨modifier, rfl⟩ : ∃ modifier, stored = .list modifier items := by
    cases stored <;> cases isList
    exact ⟨_, rfl⟩
  have live : ∀ inner, .record inner ∈ Atom.objectsOfList items →
      (after.heap.record inner).literal = false := by
    intro inner mem
    rw [objects] at mem
    cases List.mem_singleton.mp mem
    exact live
  have used := Heap.marked_record.mp (reached.isMarked standard).global
  obtain ⟨denotes, same⟩ :=
    (Session.list_written standard reached used).2 after.global
      (List.mem_of_mem_head? (Image.head?_records _ _)) "l" modifier items
      (Fields.mem_of_get? ((Record.get?_eq ..).symm.trans found)) chainless live
      (by rw [records]; decide) (by rw [functions]; decide) text expressed
  rwa [same.mpr keeps] at denotes

/-- A live record beside a quoted token: the list is built from its items, and the token is
evaluated, so that it comes back without its quote mark. -/
theorem Session.list_written_loses_quote :
    ∃ session stored text record after reloaded,
      Session.create .standard [] .empty .least = .ok session ∧
      let before := (session.perform (SessionM.runText "(set @ l (list (index-get '('a) 0) @))")).2
      before.global? "l" = some stored ∧ stored.isChainless = true ∧
      stored.objects = [.record before.global] ∧
      (before.heap.record before.global).literal = false ∧
      before.save = .ok text ∧ before.perform (SessionM.load text) = (.ok record, after) ∧
      after.global? "l" = some reloaded ∧
      stored.list?.map (List.map Atom.modifier) = some [.quote, .plain] ∧
      reloaded.list?.map (List.map Atom.modifier) = some [.plain, .plain] := by
  have lost : ((Session.create .standard [] .empty .least).toOption.bind fun session =>
      let before := (session.perform (SessionM.runText "(set @ l (list (index-get '('a) 0) @))")).2
      (before.global? "l").bind fun stored => before.save.toOption.bind fun text =>
        let loaded := before.perform (SessionM.load text)
        loaded.1.toOption.bind fun _ => (loaded.2.global? "l").map fun reloaded =>
          ((stored.isChainless, decide (stored.objects = [.record before.global]),
            (before.heap.record before.global).literal),
            stored.list?.map (List.map Atom.modifier),
            reloaded.list?.map (List.map Atom.modifier))) =
      some ((true, true, false), some [.quote, .plain], some [.plain, .plain]) := by
    decide +kernel
  obtain ⟨session, created, lost⟩ := Option.bind_eq_some_iff.mp lost
  obtain ⟨stored, isStored, lost⟩ := Option.bind_eq_some_iff.mp lost
  obtain ⟨text, saved, lost⟩ := Option.bind_eq_some_iff.mp lost
  obtain ⟨record, loaded, lost⟩ := Option.bind_eq_some_iff.mp lost
  obtain ⟨reloaded, isReloaded, lost⟩ := Option.map_eq_some_iff.mp lost
  simp only [Prod.mk.injEq, decide_eq_true_eq] at lost
  obtain ⟨⟨chainless, objects, live⟩, marks, marksLost⟩ := lost
  exact ⟨session, stored, text, record, _, reloaded, eq_ok_of_toOption created, isStored, chainless,
    objects, live, eq_ok_of_toOption saved, Prod.ext (eq_ok_of_toOption loaded) rfl, isReloaded,
    marks, marksLost⟩

end RecordLisp
