import RecordLisp.Proofs.Source.Spelling

/-!
# Phrases

Source text that is put together from parts. A phrase is a text that reads as a tree wherever a
literal may end behind it; a sequence is a text that reads as the items of a list up to a closing
parenthesis. Both come without the blanks and line feeds that may stand between parts, so a program
with layout is shown to be readable part by part.

The last section bounds the nesting of a tree by the length of the text that it was read from.
-/

namespace RecordLisp

namespace Grammar

/-- A text that reads as a tree in front of anything that ends a literal and starts no access. -/
def Phrase (text : List Char) (tree : Tree) : Prop :=
  ∀ behind rest, Stops behind → Skips behind rest → rest.head? ≠ some '.' →
    Atom (text ++ behind) tree rest

/-- A text that reads as the items of a list in front of a closing parenthesis. -/
def Sequence (text : List Char) (trees : List Tree) : Prop :=
  ∀ rest, Items (text ++ ')' :: rest) trees rest

/-- The spelling of a readable tree is a phrase. -/
theorem phrase_spelling {tree : Tree} (readable : tree.isReadable = true) :
    Phrase tree.spelling tree := by
  intro behind rest stops skips noPoint
  exact (spelled_of_isReadable tree readable).whole readable stops skips noPoint

theorem Phrase.program {text : List Char} {tree : Tree} (phrase : Phrase text tree) :
    Program text tree := by
  have atom := phrase [] [] stops_nil (.stop (by simp)) (by simp)
  rwa [List.append_nil] at atom

/-- Separators and comments in front of items change nothing. -/
theorem items_iff_of_skips {input seen rest : List Char} {trees : List Tree}
    (skips : Skips input seen) : Items input trees rest ↔ Items seen trees rest := by
  constructor
  · intro items
    cases items with
    | close closes =>
        cases skips.unique closes
        exact .close skips.self
    | item atom others => exact .item ((atom_iff_of_skips skips).mp atom) others
  · intro items
    cases items with
    | close closes =>
        cases skips.self.unique closes
        exact .close skips
    | item atom others => exact .item ((atom_iff_of_skips skips).mpr atom) others

/-- No access starts where the items of a list go on. -/
theorem Items.no_point {input seen rest : List Char} {trees : List Tree}
    (items : Items input trees rest) (skips : Skips input seen) : seen.head? ≠ some '.' := by
  cases items with
  | close closes =>
      cases skips.unique closes
      simp
  | item atom others =>
      obtain ⟨ch, more, rfl, _, _, noPoint⟩ := atom.visible skips
      simpa using noPoint

theorem skips_blank {blank input rest : List Char} (separates : ∀ ch ∈ blank, isSeparator ch = true)
    (skips : Skips input rest) : Skips (blank ++ input) rest := by
  induction blank with
  | nil => exact skips
  | cons ch blank ih =>
      apply Skips.separator (separates ch List.mem_cons_self)
      exact ih fun other mem => separates other (List.mem_cons_of_mem ch mem)

/-- Blanks alone are no items. -/
theorem sequence_blank {blank : List Char} (separates : ∀ ch ∈ blank, isSeparator ch = true) :
    Sequence blank [] := by
  intro rest
  exact .close (skips_blank separates (skips_cons rest rfl (by decide)))

/-- Blanks in front of a sequence do not count. -/
theorem Sequence.blank {blank text : List Char} {trees : List Tree}
    (sequence : Sequence text trees) (separates : ∀ ch ∈ blank, isSeparator ch = true) :
    Sequence (blank ++ text) trees := by
  intro rest
  obtain ⟨seen, skips⟩ : ∃ seen, Skips (text ++ ')' :: rest) seen :=
    ⟨_, (skips_iff .start).mpr rfl⟩
  have items := (items_iff_of_skips skips).mp (sequence rest)
  rw [List.append_assoc]
  exact (items_iff_of_skips (skips_blank separates skips)).mpr items

/-- One more item in front, which a separator or the closing parenthesis must follow. -/
theorem Sequence.cons {text more : List Char} {tree : Tree} {trees : List Tree}
    (sequence : Sequence more trees) (phrase : Phrase text tree)
    (gap : ∀ ch ∈ more.head?, isSeparator ch = true) : Sequence (text ++ more) (tree :: trees) := by
  intro rest
  obtain ⟨seen, skips⟩ : ∃ seen, Skips (more ++ ')' :: rest) seen :=
    ⟨_, (skips_iff .start).mpr rfl⟩
  have stops : Stops (more ++ ')' :: rest) := by
    cases more with
    | nil => exact stops_cons rest rfl (by decide)
    | cons ch more =>
        have separates := gap ch rfl
        apply stops_cons
        · simp [endsLiteral, separates]
        · intro point
          rw [point] at separates
          cases separates
  have items := sequence rest
  have atom := phrase _ seen stops skips (items.no_point skips)
  rw [List.append_assoc]
  exact .item atom ((items_iff_of_skips skips).mp items)

/-- A sequence in parentheses is a list. -/
theorem Sequence.list {text : List Char} {trees : List Tree} (sequence : Sequence text trees) :
    Phrase ('(' :: text ++ [')']) (.list .plain trees) := by
  intro behind rest stops skips noPoint
  have body : Body .plain ('(' :: (text ++ ')' :: behind)) (.list .plain trees) behind :=
    .list (sequence behind)
  have segment := @segment_of_body .plain '(' _ _ _ rfl body
  have atom := Atom.segments segment (.stop skips noPoint)
  simpa [Tree.chain, Tree.withModifier, Modifier.characters, Modifier.char?] using atom

end Grammar

/-! ## Nesting -/

mutual

/-- How deep lists and member expressions stand inside one another. -/
def Atom.depth : Atom → Nat
  | .leaf _ _ => 0
  | .list _ items => Atom.itemsDepth items + 1
  | .member _ target field => max target.depth field.depth + 1

/-- The depth of the deepest of some atoms. -/
def Atom.itemsDepth : List Atom → Nat
  | [] => 0
  | item :: items => max item.depth (Atom.itemsDepth items)

end

namespace Tree

mutual

/-- How deep lists and member expressions stand inside one another, record literals aside. -/
def depth : Tree → Nat
  | .leaf _ _ => 0
  | .list _ items => itemsDepth items + 1
  | .member _ target field => max target.depth field.depth + 1
  | .record _ => 0

/-- The depth of the deepest of some trees. -/
def itemsDepth : List Tree → Nat
  | [] => 0
  | item :: items => max item.depth (itemsDepth items)

end

mutual

/-- An atom is nested as deep as the tree it was built from. -/
theorem depth_build : ∀ (tree : Tree) (heap : Heap), (tree.build heap).1.depth = tree.depth
  | .leaf _ _, _ => rfl
  | .list modifier items, heap => by
      simp only [build, Atom.depth, depth, itemsDepth_buildItems items heap]
  | .member modifier target field, heap => by
      simp only [build, Atom.depth, depth, depth_build target heap, depth_build field]
  | .record _, _ => rfl

theorem itemsDepth_buildItems : ∀ (items : List Tree) (heap : Heap),
    Atom.itemsDepth (buildItems items heap).1 = itemsDepth items
  | [], _ => rfl
  | item :: items, heap => by
      simp only [buildItems, Atom.itemsDepth, itemsDepth, depth_build item heap,
        itemsDepth_buildItems items]

end

@[simp] theorem depth_withModifier (tree : Tree) (modifier : Modifier) :
    (tree.withModifier modifier).depth = tree.depth := by
  cases tree <;> rfl

end Tree

namespace Grammar

-- Every rule that adds a level reads two characters of its own: a list its parentheses, and a field
-- a point and at least one character of the atom in front of it.
mutual

theorem Atom.depth_le {input rest : List Char} {tree : Tree} :
    Atom input tree rest → 2 * tree.depth + rest.length ≤ input.length
  | .segments segment chain => by
      rw [Tree.depth_withModifier]
      exact chain.depth_le segment.depth_le segment.length_lt

theorem Segment.depth_le {input rest : List Char} {modifier : Modifier} {tree : Tree} :
    Segment input modifier tree rest → 2 * tree.depth + rest.length ≤ input.length
  | .body skips marked body => by
      have shorter := skips.length_le
      have inside := body.depth_le
      cases marked with
      | marked =>
          simp only [List.length_cons] at shorter
          omega
      | unmarked => omega

theorem Body.depth_le {modifier : Modifier} {input rest : List Char} {tree : Tree} :
    Body modifier input tree rest → 2 * tree.depth + rest.length ≤ input.length
  | .leaf lexeme _ => by
      have shorter := lexeme.length_lt
      simp only [Tree.depth]
      omega
  | .list items => by
      have inside := items.depth_lt
      simp only [Tree.depth, List.length_cons]
      omega
  | .record entries => by
      have shorter := entries.length_lt
      simp only [Tree.depth, List.length_cons]
      omega

theorem Items.depth_lt {input rest : List Char} {items : List Tree} :
    Items input items rest → 2 * Tree.itemsDepth items + rest.length < input.length
  | .close skips => by
      have shorter := skips.length_le
      simp only [Tree.itemsDepth, List.length_cons] at shorter ⊢
      omega
  | .item item items => by
      have first := item.depth_le
      have others := items.depth_lt
      have shorter := items.length_lt
      simp only [Tree.itemsDepth]
      omega

theorem Chain.depth_le {input rest : List Char} {fields : List Tree} {first : Tree} {bound : Nat} :
    Chain input fields rest → 2 * first.depth + input.length ≤ bound → input.length < bound →
      2 * (first.chain fields).depth + rest.length ≤ bound
  | .stop skips _, within, _ => by
      have shorter := skips.length_le
      change 2 * first.depth + rest.length ≤ bound
      omega
  | .field skips segment _ chain, within, consumed => by
      have shorter := skips.length_le
      have field := segment.depth_le
      have further := segment.length_lt
      simp only [List.length_cons] at shorter
      apply chain.depth_le
      · simp only [Tree.depth, Tree.depth_withModifier]
        omega
      · omega

end

/-- Each level of a program takes two characters. -/
theorem Program.depth_le {text : List Char} {tree : Tree} (isProgram : Program text tree) :
    2 * tree.depth ≤ text.length :=
  Nat.le_trans (Nat.le_add_right _ _) (Atom.depth_le isProgram)

/-- A program is nested less deep than it is long. -/
theorem Program.depth_lt {text : List Char} {tree : Tree} (isProgram : Program text tree) :
    tree.depth < text.length := by
  have twice := isProgram.depth_le
  have nonempty := Atom.length_lt isProgram
  rw [List.length_nil] at nonempty
  omega

end Grammar

end RecordLisp
