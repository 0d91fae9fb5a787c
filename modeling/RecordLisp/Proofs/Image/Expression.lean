import RecordLisp.Proofs.Eval.Core
import RecordLisp.Proofs.Heap.Pairing
import RecordLisp.Proofs.Image.Graph
import RecordLisp.Proofs.Source.Phrase

/-!
# Expressions of an image

The expression that an image writes for a value is read as code without record literals, and the
value of this code is the value itself with new objects in place of the numbered ones. The new
objects stand in two lists, which the program of an image binds to the names `atoms` and `funcs`.
-/

namespace RecordLisp

open EvalM

/-! ## Code without record literals -/

/-- A text that is read as an atom without changing the heap. -/
def Spells (text : List Char) (code : Atom) : Prop :=
  ∃ tree, Grammar.Phrase text tree ∧ ∀ heap, tree.build heap = (code, heap)

/-- A text that is read as the items of a list without changing the heap. -/
def SpellsAll (text : List Char) (codes : List Atom) : Prop :=
  ∃ trees, Grammar.Sequence text trees ∧ ∀ heap, Tree.buildItems trees heap = (codes, heap)

theorem Modifier.characters_plain : Modifier.plain.characters = [] := rfl

theorem spells_leaf {modifier : Modifier} {value : Leaf}
    (printable : value.isPrintable modifier = true) :
    Spells (modifier.characters ++ value.spelling) (.leaf modifier value) :=
  ⟨.leaf modifier value, @Grammar.phrase_spelling (.leaf modifier value) printable, fun _ => rfl⟩

theorem phrase_token {name : String} (lexes : lexesAsToken name = true) :
    Grammar.Phrase name.toList (.leaf .plain (.token name)) := by
  have phrase := @Grammar.phrase_spelling (.leaf .plain (.token name)) lexes
  rwa [Tree.spelling, Leaf.spelling, Modifier.characters_plain, List.nil_append] at phrase

theorem spells_token {name : String} (lexes : lexesAsToken name = true) :
    Spells name.toList (.token name) :=
  ⟨.leaf .plain (.token name), phrase_token lexes, fun _ => rfl⟩

theorem spells_string {text : String} (noQuote : Text.holdsQuote text = false) :
    Spells (Text.quoted text).toList (.string text) := by
  have spelled := @spells_leaf .plain (.string text) (by simp [Leaf.isPrintable, noQuote])
  rwa [Leaf.spelling, Modifier.characters_plain, List.nil_append] at spelled

theorem spellsAll_nil : SpellsAll [] [] := ⟨[], Grammar.sequence_blank (by simp), fun _ => rfl⟩

theorem SpellsAll.blank {text : List Char} {codes : List Atom} (spelled : SpellsAll text codes) :
    SpellsAll (' ' :: text) codes := by
  obtain ⟨trees, sequence, built⟩ := spelled
  exact ⟨trees, @Grammar.Sequence.blank [' '] _ _ sequence (List.all_eq_true.mp rfl), built⟩

theorem SpellsAll.cons {text more : List Char} {code : Atom} {codes : List Atom}
    (others : SpellsAll more codes) (first : Spells text code)
    (gap : ∀ ch ∈ more.head?, isSeparator ch = true) :
    SpellsAll (text ++ more) (code :: codes) := by
  obtain ⟨trees, sequence, builtAll⟩ := others
  obtain ⟨tree, phrase, built⟩ := first
  refine ⟨tree :: trees, sequence.cons phrase gap, fun heap => ?_⟩
  simp only [Tree.buildItems, built, builtAll]

/-- One more item in front, with a blank behind it. -/
theorem SpellsAll.next {text more : List Char} {code : Atom} {codes : List Atom}
    (others : SpellsAll more codes) (first : Spells text code) :
    SpellsAll (text ++ ' ' :: more) (code :: codes) := by
  apply others.blank.cons first
  simp [isSeparator]

theorem Spells.single {text : List Char} {code : Atom} (spelled : Spells text code) :
    SpellsAll text [code] := by
  have alone := spellsAll_nil.cons spelled (by simp)
  rwa [List.append_nil] at alone

theorem SpellsAll.list {text : List Char} {codes : List Atom} (spelled : SpellsAll text codes) :
    Spells ('(' :: text ++ [')']) (.ofList codes) := by
  obtain ⟨trees, sequence, built⟩ := spelled
  refine ⟨.list .plain trees, sequence.list, fun heap => ?_⟩
  simp only [Tree.build, built]

namespace Heap

mutual

/-- An atom that unfolds without a record is built from its tree as it is. -/
theorem Unfolds.build_eq {heap : Heap} {atom : Atom} {tree : Tree} {ids : List RecordId} :
    heap.Unfolds atom tree ids → ids = [] → ∀ target, tree.build target = (atom, target)
  | .leaf _, _, _ => rfl
  | .list items, closed, target => by simp only [Tree.build, items.buildItems_eq closed target]
  | .member target field, closed, other => by
      obtain ⟨first, second⟩ := List.append_eq_nil_iff.mp closed
      simp only [Tree.build, target.build_eq first, field.build_eq second]
  | .record _ _ _, closed, _ => by cases closed

theorem UnfoldsItems.buildItems_eq {heap : Heap} {items : List Atom} {trees : List Tree}
    {ids : List RecordId} :
    heap.UnfoldsItems items trees ids → ids = [] →
      ∀ target, Tree.buildItems trees target = (items, target)
  | .nil, _, _ => rfl
  | .cons item items, closed, target => by
      obtain ⟨first, second⟩ := List.append_eq_nil_iff.mp closed
      simp only [Tree.buildItems, item.build_eq first, items.buildItems_eq second]

end

end Heap

namespace Image

variable {image : Image}

theorem exists_recordNumber {id : RecordId} (mem : id ∈ image.records) :
    ∃ number, image.recordNumber? id = some number ∧ image.records[number]? = some id := by
  obtain ⟨number, found⟩ := List.mem_iff_getElem?.mp mem
  exact ⟨number, recordNumber?_eq_some_iff.mpr found, found⟩

theorem exists_functionNumber {id : FunctionId} (mem : id ∈ image.functions) :
    ∃ number, image.functionNumber? id = some number ∧ image.functions[number]? = some id := by
  obtain ⟨number, found⟩ := List.mem_iff_getElem?.mp mem
  exact ⟨number, functionNumber?_eq_some_iff.mpr found, found⟩

mutual

/-- A value without a number anywhere and with all its objects numbered has no objects. -/
theorem handles_of_not_holdsNumbered : ∀ atom : Atom,
    (∀ id, .record id ∈ atom.handles (fun _ => false) → id ∈ image.records) →
      image.holdsNumbered atom = false → atom.handles (fun _ => false) = []
  | .leaf _ (.record id), numbered, unnumbered => by
      obtain ⟨number, isNumber, _⟩ :=
        exists_recordNumber (numbered id (by simp [Atom.handles, Leaf.handle?]))
      simp [holdsNumbered, isNumber] at unnumbered
  | .leaf _ (.function _), _, unnumbered => by simp [holdsNumbered] at unnumbered
  | .leaf _ .nil, _, _ | .leaf _ (.integer _), _, _ | .leaf _ (.decimal _), _, _
  | .leaf _ (.string _), _, _ | .leaf _ (.token _), _, _ => rfl
  | .list _ items, numbered, unnumbered => by
      simp only [Atom.handles, Bool.false_eq_true, if_false] at numbered ⊢
      exact handlesOfList_of_not_anyHoldsNumbered items numbered unnumbered
  | .member _ target field, numbered, unnumbered => by
      simp only [holdsNumbered, Bool.or_eq_false_iff] at unnumbered
      simp only [Atom.handles, List.mem_append] at numbered ⊢
      rw [handles_of_not_holdsNumbered target (fun id mem => numbered id (.inl mem)) unnumbered.1,
        handles_of_not_holdsNumbered field (fun id mem => numbered id (.inr mem)) unnumbered.2]
      rfl

theorem handlesOfList_of_not_anyHoldsNumbered : ∀ items : List Atom,
    (∀ id, .record id ∈ Atom.handlesOfList (fun _ => false) items → id ∈ image.records) →
      image.anyHoldsNumbered items = false → Atom.handlesOfList (fun _ => false) items = []
  | [], _, _ => rfl
  | item :: items, numbered, unnumbered => by
      simp only [anyHoldsNumbered, Bool.or_eq_false_iff] at unnumbered
      simp only [Atom.handlesOfList, List.mem_append] at numbered ⊢
      rw [handles_of_not_holdsNumbered item (fun id mem => numbered id (.inl mem)) unnumbered.1,
        handlesOfList_of_not_anyHoldsNumbered items (fun id mem => numbered id (.inr mem))
          unnumbered.2]
      rfl

end

/-- A leaf that is no object, is well marked and is read back as it prints is printable. -/
theorem isPrintable_of_isWellMarked {record : RecordId → Bool} {modifier : Modifier} {value : Leaf}
    (noHandle : value.handle? = none) (marked : (Atom.leaf modifier value).isWellMarked = true)
    (verbatim : Image.verbatimWith record (.leaf modifier value) = true) :
    value.isPrintable modifier = true := by
  cases value with
  | record | function => cases noHandle
  | nil => rfl
  | token => exact verbatim
  | integer | decimal | string =>
      simp_all [Atom.isWellMarked, Atom.takesModifier, Leaf.isPrintable, Image.verbatimWith]

mutual

/-- A value without objects and chains that is well marked and is read back as it prints unfolds
into a printable tree. -/
theorem exists_unfolds {record : RecordId → Bool} : ∀ atom : Atom, atom.isChainless = true →
    atom.isWellMarked = true → atom.handles (fun _ => false) = [] →
    verbatimWith record atom = true →
      ∃ tree, image.heap.Unfolds atom tree [] ∧ tree.isPrintable = true
  | .leaf modifier value, _, marked, closed, verbatim => by
      have noHandle : value.handle? = none := by
        simpa [Atom.handles, Option.toList_eq_nil_iff] using closed
      exact ⟨.leaf modifier value, .leaf noHandle,
        isPrintable_of_isWellMarked noHandle marked verbatim⟩
  | .list modifier items, chainless, marked, closed, verbatim => by
      simp only [Atom.handles, Bool.false_eq_true, if_false] at closed
      obtain ⟨trees, unfolds, printable⟩ :=
        exists_unfoldsItems items chainless marked closed verbatim
      exact ⟨.list modifier trees, .list unfolds, printable⟩
  | .member _ _ _, chainless, _, _, _ => by cases chainless

theorem exists_unfoldsItems {record : RecordId → Bool} : ∀ items : List Atom,
    Atom.areChainless items = true → Atom.areWellMarked items = true →
      Atom.handlesOfList (fun _ => false) items = [] → verbatimItems record items = true →
      ∃ trees, image.heap.UnfoldsItems items trees [] ∧ Tree.arePrintable trees = true
  | [], _, _, _, _ => ⟨[], .nil, rfl⟩
  | item :: items, chainless, marked, closed, verbatim => by
      simp only [Atom.areChainless, Bool.and_eq_true] at chainless
      simp only [Atom.areWellMarked, Bool.and_eq_true] at marked
      simp only [Atom.handlesOfList, List.append_eq_nil_iff] at closed
      simp only [verbatimItems, Bool.and_eq_true] at verbatim
      obtain ⟨tree, unfolds, printable⟩ :=
        exists_unfolds item chainless.1 marked.1 closed.1 verbatim.1
      obtain ⟨trees, unfoldsAll, printableAll⟩ :=
        exists_unfoldsItems items chainless.2 marked.2 closed.2 verbatim.2
      refine ⟨tree :: trees, .cons unfolds unfoldsAll, ?_⟩
      rw [Tree.arePrintable, printable, printableAll]
      rfl

end

/-! ## Values of expressions -/

/-- New records and functions for the numbered ones, in the order of the numbers. -/
structure Copies (image : Image) where
  records : List RecordId
  functions : List FunctionId
  length_records : records.length = image.records.length
  length_functions : functions.length = image.functions.length
  nodup_records : image.records.Nodup ∧ records.Nodup
  nodup_functions : image.functions.Nodup ∧ functions.Nodup

/-- Items at the same place of two lists. -/
def Aligned {α : Type} (items others : List α) (item other : α) : Prop :=
  ∃ number : Nat, items[number]? = some item ∧ others[number]? = some other

theorem Aligned.unique {α : Type} {items others : List α} {a b a' b' : α}
    (distinct : items.Nodup ∧ others.Nodup) (first : Aligned items others a b)
    (second : Aligned items others a' b') : a = a' ↔ b = b' := by
  obtain ⟨number, here, there⟩ := first
  obtain ⟨number', here', there'⟩ := second
  obtain ⟨inItems, -⟩ := List.getElem?_eq_some_iff.mp here
  obtain ⟨inOthers, -⟩ := List.getElem?_eq_some_iff.mp there
  constructor
  · intro same
    have place := (List.getElem?_inj inItems distinct.1).mp (here.trans (same ▸ here'.symm))
    rw [place, there'] at there
    exact (Option.some.inj there).symm
  · intro same
    have place := (List.getElem?_inj inOthers distinct.2).mp (there.trans (same ▸ there'.symm))
    rw [place, here'] at here
    exact (Option.some.inj here).symm

namespace Copies

/-- A numbered object and the new one with the same number stand for one another. -/
def pairing (copies : Copies image) : Pairing where
  record := Aligned image.records copies.records
  function := Aligned image.functions copies.functions
  record_unique := Aligned.unique copies.nodup_records
  function_unique := Aligned.unique copies.nodup_functions

/-- Whether the two names of an image are bound to the new objects in a scope. -/
def Bound (copies : Copies image) (scope : RecordId) (heap : Heap) : Prop :=
  heap.lookup? scope "atoms" = some (.ofList (copies.records.map .record)) ∧
    heap.lookup? scope "funcs" = some (.ofList (copies.functions.map .function))

end Copies

/-- A text that is read as code whose value is a copy of another, wherever the names of the image
are bound. -/
def Denotes (image : Image) (text : String) (value : Atom) : Prop :=
  ∃ code : Atom, Spells text.toList code ∧ code.modifier ≠ .expand ∧
    ∀ copies : Copies image, ∃ copy, value.Match copies.pairing copy ∧
      ∀ registry : Registry, registry.Has Pack.core → ∀ base fuel scope heap, code.depth < fuel →
        copies.Bound scope heap → Does base (registry.eval fuel code) scope heap copy heap

/-- The expressions of several values, each behind a blank. -/
def DenotesAll (image : Image) (text : String) (values : List Atom) : Prop :=
  ∃ codes : List Atom, SpellsAll text.toList codes ∧
    (∀ ch ∈ text.toList.head?, isSeparator ch = true) ∧
    (∀ code ∈ codes, code.modifier ≠ .expand) ∧
    ∀ copies : Copies image, ∃ others, List.Forall₂ (Atom.Match copies.pairing) values others ∧
      ∀ registry : Registry, registry.Has Pack.core → ∀ base fuel scope heap,
        Atom.itemsDepth codes < fuel → copies.Bound scope heap →
        Does base (codes.mapM (registry.eval fuel)) scope heap others heap

/-- A literal is an expression for itself. -/
theorem denotes_literal {value : Leaf} (noHandle : value.handle? = none)
    (noToken : ∀ name, value ≠ .token name) (printable : value.isPrintable .plain = true)
    {text : String} (spelled : text.toList = value.spelling) :
    image.Denotes text (.leaf .plain value) := by
  refine ⟨.leaf .plain value, spelled ▸ spells_leaf printable, by simp [Atom.modifier], ?_⟩
  intro copies
  refine ⟨_, .leaf (.same noHandle), fun registry _ base fuel scope heap deep _ => ?_⟩
  obtain ⟨fuel, rfl⟩ := Nat.exists_eq_add_one.mpr (Nat.zero_lt_of_lt deep)
  refine Registry.evaluates_leaf noToken fun id same => ?_
  rw [same] at noHandle
  cases noHandle

/-- A quoted value is an expression for the value. -/
theorem denotes_quoted {value : Atom} (plain : value.modifier = .plain)
    (closed : value.handles (fun _ => false) = []) {text : String}
    (spelled : Spells text.toList (value.withModifier .quote)) : image.Denotes text value := by
  refine ⟨value.withModifier .quote, spelled, by simp, ?_⟩
  intro copies
  refine ⟨value, value.match_self closed, fun registry _ base fuel scope heap deep _ => ?_⟩
  obtain ⟨fuel, rfl⟩ := Nat.exists_eq_add_one.mpr (Nat.zero_lt_of_lt deep)
  have quoted :=
    @Registry.evaluates_quoted registry base fuel scope heap (value.withModifier .quote) (by simp)
  rwa [Atom.unmarked, Atom.withModifier_withModifier, ← plain, Atom.withModifier_modifier] at quoted

/-- The integer of a number. -/
def numberInteger (number : Nat) (small : number < 2147483648) : Integer :=
  ⟨number, by omega, by omega⟩

theorem phrase_number {number : Nat} (small : number < 2147483648) :
    Grammar.Phrase number.repr.toList (.leaf .plain (.integer (numberInteger number small))) := by
  have phrase := @Grammar.phrase_spelling (.leaf .plain (.integer (numberInteger number small))) rfl
  have written : (numberInteger number small).text = number.repr := by
    simp [Integer.text, numberInteger]
  rwa [Tree.spelling, Leaf.spelling, written, Modifier.characters_plain, List.nil_append] at phrase

theorem spells_number {number : Nat} (small : number < 2147483648) :
    Spells number.repr.toList (.integer (numberInteger number small)) :=
  ⟨_, phrase_number small, fun _ => rfl⟩

/-- The code of an expression for a numbered object. -/
def referenceCode (name : String) (number : Nat) (small : number < 2147483648) : Atom :=
  .ofList [.token "index-get", .token name, .integer (numberInteger number small)]

theorem spells_reference {name : String} (lexes : lexesAsToken name = true) {number : Nat}
    (small : number < 2147483648) :
    Spells ('(' :: ("index-get".toList ++ ' ' :: (name.toList ++ ' ' :: number.repr.toList)) ++
      [')']) (referenceCode name number small) :=
  (((spells_number small).single.next (spells_token lexes)).next
    (@spells_token "index-get" (by decide))).list

theorem toList_closing : ")".toList = [')'] := by decide

theorem spells_recordReference {number : Nat} (small : number < 2147483648) :
    Spells (recordReference number).toList (referenceCode "atoms" number small) := by
  have start : "(index-get atoms ".toList =
      '(' :: ("index-get".toList ++ ' ' :: ("atoms".toList ++ [' '])) := by decide
  have spelled := @spells_reference "atoms" (by decide) number small
  unfold recordReference
  rw [String.toList_append, String.toList_append, start, toList_closing]
  simpa only [List.append_assoc, List.cons_append, List.nil_append] using spelled

theorem spells_functionReference {number : Nat} (small : number < 2147483648) :
    Spells (functionReference number).toList (referenceCode "funcs" number small) := by
  have start : "(index-get funcs ".toList =
      '(' :: ("index-get".toList ++ ' ' :: ("funcs".toList ++ [' '])) := by decide
  have spelled := @spells_reference "funcs" (by decide) number small
  unfold functionReference
  rw [String.toList_append, String.toList_append, start, toList_closing]
  simpa only [List.append_assoc, List.cons_append, List.nil_append] using spelled

/-- The code of an expression for a numbered object gives the item of its list. -/
theorem evaluates_reference {registry : Registry} (core : registry.Has Pack.core) {base : Heap}
    {fuel : Nat} {scope : RecordId} {heap : Heap} {name : String} {items : List Atom} {value : Atom}
    {number : Nat} (small : number < 2147483648) (deep : 1 < fuel)
    (bound : heap.lookup? scope name = some (.ofList items)) (found : items[number]? = some value) :
    Does base (registry.eval fuel (referenceCode name number small)) scope heap value heap := by
  obtain ⟨fuel, rfl⟩ : ∃ less, fuel = less + 1 + 1 := ⟨fuel - 2, by omega⟩
  refine Registry.evaluates_indexGet core ⟨by simp [Atom.modifier], by simp [Atom.modifier]⟩
    (Registry.evaluates_token bound) (Registry.evaluates_leaf (by simp) (by simp)) ?_ ?_
  · simp [numberInteger]
  · simpa [numberInteger] using found

theorem denotes_recordReference {id : RecordId} {number : Nat}
    (few : image.records.length < 2147483648) (found : image.records[number]? = some id) :
    image.Denotes (recordReference number) (.record id) := by
  obtain ⟨inRange, -⟩ := List.getElem?_eq_some_iff.mp found
  refine ⟨_, spells_recordReference (Nat.lt_trans inRange few),
    by simp [referenceCode, Atom.modifier], ?_⟩
  intro copies
  have inCopies : number < copies.records.length := copies.length_records ▸ inRange
  have copied := List.getElem?_eq_getElem inCopies
  refine ⟨.record copies.records[number], .leaf (.record ⟨number, found, copied⟩),
    fun registry core base fuel scope heap deep bound => ?_⟩
  apply evaluates_reference core _ deep bound.1
  simp [copied]

theorem denotes_functionReference {id : FunctionId} {number : Nat}
    (few : image.functions.length < 2147483648) (found : image.functions[number]? = some id) :
    image.Denotes (functionReference number) (.function id) := by
  obtain ⟨inRange, -⟩ := List.getElem?_eq_some_iff.mp found
  refine ⟨_, spells_functionReference (Nat.lt_trans inRange few),
    by simp [referenceCode, Atom.modifier], ?_⟩
  intro copies
  have inCopies : number < copies.functions.length := copies.length_functions ▸ inRange
  have copied := List.getElem?_eq_getElem inCopies
  refine ⟨.function copies.functions[number], .leaf (.function ⟨number, found, copied⟩),
    fun registry core base fuel scope heap deep bound => ?_⟩
  apply evaluates_reference core _ deep bound.2
  simp [copied]

theorem spells_stot {name : String} (noQuote : Text.holdsQuote name = false) :
    Spells ("(stot " ++ Text.quoted name ++ ")").toList
      (.ofList [.token "stot", .string name]) := by
  have start : "(stot ".toList = '(' :: ("stot".toList ++ [' ']) := by decide
  have spelled := ((spells_string noQuote).single.next
    (@spells_token "stot" (by decide))).list
  rw [String.toList_append, String.toList_append, start, toList_closing]
  simpa only [List.append_assoc, List.cons_append, List.nil_append] using spelled

/-- A token that is not read back is an expression as a conversion of its text. -/
theorem denotes_stot {name : String} (noQuote : Text.holdsQuote name = false) :
    image.Denotes ("(stot " ++ Text.quoted name ++ ")") (.token name) := by
  refine ⟨.ofList [.token "stot", .string name], spells_stot noQuote, by simp [Atom.modifier], ?_⟩
  intro copies
  refine ⟨.token name, .leaf (.same rfl), fun registry core base fuel scope heap deep _ => ?_⟩
  obtain ⟨fuel, rfl⟩ : ∃ less, fuel = less + 1 + 1 :=
    ⟨fuel - 2, by simp [Atom.depth, Atom.itemsDepth] at deep; omega⟩
  exact Registry.evaluates_stot core (by simp [Atom.modifier])
    (Registry.evaluates_leaf (by simp) (by simp))

theorem exists_leafExpression (few : image.records.length < 2147483648)
    (fewFunctions : image.functions.length < 2147483648) {value : Leaf}
    (savable : value.isSavable = true)
    (numbered : ∀ handle, value.handle? = some handle → image.Numbers handle) :
    ∃ text, image.leafExpression value = .ok text ∧ image.Denotes text (.leaf .plain value) := by
  cases value with
  | nil => exact ⟨_, rfl, denotes_literal rfl (by simp) rfl (by decide)⟩
  | integer value => exact ⟨_, rfl, denotes_literal rfl (by simp) rfl rfl⟩
  | decimal value =>
      have finite : value.isFinite = true := savable
      refine ⟨value.text, by simp [leafExpression, decimalLiteral, finite], ?_⟩
      exact denotes_literal rfl (by simp) (by simpa [Leaf.isPrintable] using finite) rfl
  | string text =>
      have noQuote : Text.holdsQuote text = false := by simpa [Leaf.isSavable] using savable
      refine ⟨Text.quoted text, by simp [leafExpression, stringLiteral, noQuote], ?_⟩
      exact denotes_literal rfl (by simp) (by simpa [Leaf.isPrintable] using noQuote) rfl
  | token name =>
      cases lexes : lexesAsToken name with
      | true =>
          refine ⟨"'" ++ name, by simp [leafExpression, lexes], ?_⟩
          have spelled := @spells_leaf .quote (.token name) lexes
          refine denotes_quoted rfl rfl ?_
          rwa [String.toList_append]
      | false =>
          have noQuote : Text.holdsQuote name = false := by
            simpa [Leaf.isSavable, lexes] using savable
          refine ⟨"(stot " ++ Text.quoted name ++ ")", ?_, denotes_stot noQuote⟩
          simp [leafExpression, stringLiteral, lexes, noQuote]
  | record id =>
      obtain ⟨number, isNumber, found⟩ := exists_recordNumber (numbered _ rfl)
      refine ⟨recordReference number, ?_, denotes_recordReference few found⟩
      simp [leafExpression, isNumber]
  | function id =>
      obtain ⟨number, isNumber, found⟩ := exists_functionNumber (numbered _ rfl)
      refine ⟨functionReference number, ?_, denotes_functionReference fewFunctions found⟩
      simp [leafExpression, isNumber]

/-- A list that is quoted as a whole. -/
theorem denotes_quotedList {items : List Atom} (chainless : Atom.areChainless items = true)
    (marked : Atom.areWellMarked items = true)
    (closed : Atom.handlesOfList (fun _ => false) items = [])
    (verbatim : image.verbatim (.ofList items) = true) :
    image.Denotes ("'" ++ image.heap.print (.ofList items)) (.ofList items) := by
  obtain ⟨trees, unfolds, printable⟩ :=
    @exists_unfoldsItems image _ items chainless marked closed verbatim
  have printed := (Heap.Unfolds.list unfolds : image.heap.Unfolds (.ofList items) _ _).toList_print
    List.nodup_nil
  refine denotes_quoted rfl (by simpa [Atom.handles] using closed) ⟨.list .quote trees, ?_, ?_⟩
  · have phrase := @Grammar.phrase_spelling (.list .quote trees)
      (Tree.areReadable_of_arePrintable trees printable)
    rw [String.toList_append, printed]
    exact phrase
  · exact (Heap.Unfolds.list unfolds : image.heap.Unfolds (.list .quote items) _ _).build_eq rfl

/-- A list that is built from its items. -/
theorem DenotesAll.list {text : String} {items : List Atom}
    (denotes : image.DenotesAll text items) :
    image.Denotes ("(list" ++ text ++ ")") (.ofList items) := by
  obtain ⟨codes, spelled, gap, noExpand, gives⟩ := denotes
  refine ⟨.ofList (.token "list" :: codes), ?_, by simp [Atom.modifier], ?_⟩
  · have start : "(list".toList = '(' :: "list".toList := by decide
    have whole := (spelled.cons (@spells_token "list" (by decide)) gap).list
    rw [String.toList_append, String.toList_append, start, toList_closing]
    simpa only [List.append_assoc, List.cons_append, List.nil_append] using whole
  · intro copies
    obtain ⟨others, matched, does⟩ := gives copies
    refine ⟨.ofList others, .list matched, fun registry core base fuel scope heap deep bound => ?_⟩
    obtain ⟨fuel, rfl⟩ := Nat.exists_eq_add_one.mpr (Nat.zero_lt_of_lt deep)
    have inside : Atom.itemsDepth codes < fuel := by
      simp only [Atom.depth, Atom.itemsDepth] at deep
      omega
    exact Registry.evaluates_list core noExpand
      (does registry core base fuel scope heap inside bound)

theorem DenotesAll.nil : image.DenotesAll "" [] :=
  ⟨[], spellsAll_nil, by simp, by simp, fun _ => ⟨[], .nil, fun _ _ _ _ _ _ _ _ => does_mapM_nil _⟩⟩

theorem DenotesAll.cons {text more : String} {item : Atom} {items : List Atom}
    (others : image.DenotesAll more items) (first : image.Denotes text item) :
    image.DenotesAll (" " ++ text ++ more) (item :: items) := by
  obtain ⟨codes, spelledAll, gap, noExpandAll, givesAll⟩ := others
  obtain ⟨code, spelled, noExpand, gives⟩ := first
  have blank : (" " ++ text ++ more).toList = ' ' :: (text.toList ++ more.toList) := by
    rw [String.toList_append, String.toList_append]
    rfl
  rw [DenotesAll, blank]
  refine ⟨code :: codes, (spelledAll.cons spelled gap).blank, by simp [isSeparator],
    List.forall_mem_cons.mpr ⟨noExpand, noExpandAll⟩, ?_⟩
  intro copies
  obtain ⟨copy, matched, does⟩ := gives copies
  obtain ⟨copyAll, matchedAll, doesAll⟩ := givesAll copies
  refine ⟨copy :: copyAll, .cons matched matchedAll, ?_⟩
  intro registry core base fuel scope heap deep bound
  obtain ⟨deepFirst, deepOthers⟩ := Nat.max_lt.mp deep
  exact does_mapM_cons (does registry core base fuel scope heap deepFirst bound)
    (doesAll registry core base fuel scope heap deepOthers bound)

-- One case for each kind of value; a list is quoted or built from the expressions of its items.
mutual

/-- Every savable value has an expression. -/
theorem exists_expression (few : image.records.length < 2147483648)
    (fewFunctions : image.functions.length < 2147483648) : ∀ value : Atom, value.isSavable = true →
      (∀ handle ∈ value.handles (fun _ => false), image.Numbers handle) →
      ∃ text, image.expression value = .ok text ∧ image.Denotes text value
  | .leaf modifier value, savable, numbered => by
      simp only [Atom.isSavable, Bool.and_eq_true, beq_iff_eq] at savable
      rw [savable.1]
      refine exists_leafExpression few fewFunctions savable.2 fun handle found => ?_
      exact numbered handle (by simp [Atom.handles, found])
  | .list modifier items, savable, numbered => by
      simp only [Atom.isSavable, Bool.and_eq_true, beq_iff_eq] at savable
      simp only [Atom.handles, Bool.false_eq_true, if_false] at numbered
      rw [savable.1]
      cases quoted : !image.anyHoldsNumbered items && image.verbatim (.ofList items) with
      | true =>
          simp only [Bool.and_eq_true, Bool.not_eq_true'] at quoted
          have closed := handlesOfList_of_not_anyHoldsNumbered items
            (fun id mem => numbered _ mem) quoted.1
          obtain ⟨chainless, marked⟩ := Atom.areWellMarked_of_areSavable items savable.2
          refine ⟨_, ?_, denotes_quotedList chainless marked closed quoted.2⟩
          simp [expression, quoted]
      | false =>
          obtain ⟨text, written, denotes⟩ :=
            exists_expressions few fewFunctions items savable.2 numbered
          refine ⟨_, ?_, denotes.list⟩
          rw [expression, quoted, written]
          rfl
  | .member _ _ _, savable, _ => by cases savable

theorem exists_expressions (few : image.records.length < 2147483648)
    (fewFunctions : image.functions.length < 2147483648) : ∀ items : List Atom,
      Atom.areSavable items = true →
      (∀ handle ∈ Atom.handlesOfList (fun _ => false) items, image.Numbers handle) →
      ∃ text, image.expressions items = .ok text ∧ image.DenotesAll text items
  | [], _, _ => ⟨"", rfl, .nil⟩
  | item :: items, savable, numbered => by
      simp only [Atom.areSavable, Bool.and_eq_true] at savable
      simp only [Atom.handlesOfList, List.mem_append] at numbered
      obtain ⟨text, written, denotes⟩ := exists_expression few fewFunctions item savable.1
        fun handle mem => numbered handle (.inl mem)
      obtain ⟨more, writtenAll, denotesAll⟩ := exists_expressions few fewFunctions items savable.2
        fun handle mem => numbered handle (.inr mem)
      refine ⟨_, ?_, denotesAll.cons denotes⟩
      rw [expressions, written, writtenAll]
      rfl

end

end Image

end RecordLisp
