import Mathlib.Data.List.Induction
import Mathlib.Data.Set.Subsingleton
import RecordLisp.Proofs.Effect
import RecordLisp.Proofs.Source.Scanning

/-!
# Reading follows the grammar

The reader accepts exactly the texts of the grammar and gives the atom of their tree. Both
directions are shown at once: each part of the reader succeeds exactly when the rule for that part
applies, provided that the reader for nested atoms has this property for shorter texts. The bound on
nesting is the length of the text, and every rule leaves a shorter text, so the bound is never met.

The reader takes what stands behind a point as an atom of its own and joins it to the atom in front,
while the grammar has a flat sequence of fields. `Atom.join_chain` bridges the two.
-/

namespace RecordLisp

open Effect

/-! ## Chains of atoms -/

@[simp] theorem Modifier.orElse_plain (modifier : Modifier) :
    modifier.orElse .plain = modifier := by
  cases modifier <;> rfl

namespace Atom

/-- Whether an atom is a member expression. -/
def isMember : Atom → Bool
  | .member _ _ _ => true
  | _ => false

/-- The first segment of a chain. -/
def leftmost : Atom → Atom
  | .member _ target _ => target.leftmost
  | atom => atom

/-- Whether source text can put a modifier in front of an atom that is no chain. -/
def takesModifier : Atom → Bool
  | .leaf _ .nil | .leaf _ (.token _) | .list _ _ => true
  | _ => false

/-- A chain of field accesses, which leans left. -/
def chain (first : Atom) (fields : List Atom) : Atom := fields.foldl (.member .plain) first

@[simp] theorem chain_nil (first : Atom) : first.chain [] = first := rfl

@[simp] theorem chain_cons (first field : Atom) (fields : List Atom) :
    first.chain (field :: fields) = (Atom.member .plain first field).chain fields := rfl

theorem chain_append_singleton (first : Atom) (fields : List Atom) (field : Atom) :
    first.chain (fields ++ [field]) = .member .plain (first.chain fields) field := by
  simp [chain]

/-- A segment that is no member expression is attached as it stands, with the inherited modifier
when it has none. -/
theorem attach_of_not_member (lhs : Atom) (inherited : Modifier) {rhs : Atom}
    (segment : rhs.isMember = false) :
    lhs.attach inherited rhs =
      .member .plain lhs (rhs.withModifier (rhs.modifier.orElse inherited)) := by
  cases rhs with
  | leaf | list => rfl
  | member => cases segment

/-- Attaching an unmarked chain attaches its segments one by one; the first takes the inherited
modifier. -/
theorem attach_chain (lhs : Atom) (inherited : Modifier) {first : Atom} {fields : List Atom}
    (unmarked : first.modifier = .plain) (segment : first.isMember = false)
    (segments : ∀ field ∈ fields, field.isMember = false) :
    lhs.attach inherited (first.chain fields) =
      lhs.chain (first.withModifier inherited :: fields) := by
  induction fields using List.reverseRecOn with
  | nil =>
      rw [chain_nil, attach_of_not_member lhs inherited segment, unmarked]
      rfl
  | append_singleton fields field ih =>
      have earlier : ∀ other ∈ fields, other.isMember = false := fun other mem =>
        segments other (by simp [mem])
      rw [chain_append_singleton, attach, ← List.cons_append, chain_append_singleton]
      have inherits : Modifier.orElse .plain inherited = inherited := rfl
      rw [inherits, ih earlier, attach_of_not_member _ _ (segments field (by simp))]
      simp

/-- Joining a chain with a modifier in front appends its segments; the modifier stays with the
first of them. -/
theorem join_chain (lhs : Atom) (modifier : Modifier) {first : Atom} {fields : List Atom}
    (unmarked : first.modifier = .plain) (segment : first.isMember = false)
    (segments : ∀ field ∈ fields, field.isMember = false) :
    lhs.join ((first.chain fields).withModifier modifier) =
      lhs.chain (first.withModifier modifier :: fields) := by
  cases fields using List.reverseRecOn with
  | nil =>
      have segment' : (first.withModifier modifier).isMember = false := by
        cases first <;> simp_all [isMember, withModifier]
      rw [chain_nil, join, attach_of_not_member lhs .plain segment']
      simp
  | append_singleton fields field =>
      have earlier : ∀ other ∈ fields, other.isMember = false := fun other mem =>
        segments other (by simp [mem])
      rw [chain_append_singleton, withModifier, join, attach, Modifier.orElse_plain,
        attach_chain lhs modifier unmarked segment earlier,
        attach_of_not_member _ _ (segments field (by simp)), ← List.cons_append,
        chain_append_singleton]
      simp

end Atom

/-! ## Building trees -/

namespace Tree

/-- Whether a tree is a member expression. -/
def isMember : Tree → Bool
  | .member _ _ _ => true
  | _ => false

/-- Whether a tree is a list of a name and a value, as the entries of record literals are. -/
def IsPair (tree : Tree) (name : String) (value : Tree) : Prop :=
  ∃ onEntry onName leaf, tree = .list onEntry [.leaf onName leaf, value] ∧
    (leaf = .token name ∨ leaf = .string name)

@[simp] theorem chain_nil (first : Tree) : first.chain [] = first := rfl

@[simp] theorem chain_cons (first field : Tree) (fields : List Tree) :
    first.chain (field :: fields) = (Tree.member .plain first field).chain fields := rfl

theorem isMember_build (tree : Tree) (heap : Heap) :
    (tree.build heap).1.isMember = tree.isMember := by
  cases tree <;> simp [build, isMember, Atom.isMember]

theorem modifier_build (tree : Tree) (heap : Heap) :
    (tree.build heap).1.modifier = tree.modifier := by
  cases tree <;> simp [build, modifier, Atom.modifier]

/-- A modifier is put on a tree or on its atom, unless the tree is a record literal. -/
theorem build_withModifier {tree : Tree} {modifier : Modifier}
    (allowed : ∀ fields, tree = .record fields → modifier = .plain) (heap : Heap) :
    (tree.withModifier modifier).build heap =
      ((tree.build heap).1.withModifier modifier, (tree.build heap).2) := by
  cases tree with
  | record fields =>
      rw [allowed fields rfl]
      simp [build, withModifier, Atom.withModifier]
  | leaf | list | member => simp [build, withModifier, Atom.withModifier]

theorem build_chain (first : Tree) (fields : List Tree) (heap : Heap) :
    (first.chain fields).build heap =
      ((first.build heap).1.chain (buildItems fields (first.build heap).2).1,
        (buildItems fields (first.build heap).2).2) := by
  induction fields generalizing first with
  | nil => simp [buildItems]
  | cons field fields ih => simp [ih, build, buildItems]

theorem isMember_buildItems {fields : List Tree}
    (segments : ∀ field ∈ fields, field.isMember = false)
    (heap : Heap) : ∀ field ∈ (buildItems fields heap).1, field.isMember = false := by
  induction fields generalizing heap with
  | nil => simp [buildItems]
  | cons field fields ih =>
      simp only [buildItems, List.mem_cons]
      rintro _ (rfl | later)
      · rw [isMember_build]
        exact segments field (by simp)
      · exact ih (fun other mem => segments other (by simp [mem])) _ _ later

theorem build_eq_list {tree : Tree} {heap after : Heap} {modifier : Modifier} {items : List Atom}
    (built : tree.build heap = (.list modifier items, after)) :
    ∃ trees, tree = .list modifier trees ∧ buildItems trees heap = (items, after) := by
  cases tree with
  | list _ trees =>
      simp only [build] at built
      cases built
      exact ⟨trees, rfl, rfl⟩
  | leaf | member | record => simp [build] at built

/-- A name that was built is a leaf of its tree. -/
theorem build_eq_named {tree : Tree} {heap after : Heap} {atom : Atom} {name : String}
    (built : tree.build heap = (atom, after)) (named : atom.name? = some name) :
    ∃ modifier leaf, tree = .leaf modifier leaf ∧ (leaf = .token name ∨ leaf = .string name) ∧
      after = heap := by
  cases tree with
  | leaf modifier leaf =>
      simp only [build] at built
      cases built
      refine ⟨modifier, leaf, rfl, ?_, rfl⟩
      cases leaf <;> simp [Atom.name?] at named <;> simp [named]
  | list | member | record =>
      simp only [build] at built
      cases built
      simp [Atom.name?] at named

/-- A name puts no record into the heap. -/
theorem IsPair.build_snd {tree value : Tree} {name : String} {heap : Heap}
    (pair : tree.IsPair name value) : (tree.build heap).2 = (value.build heap).2 := by
  obtain ⟨_, _, _, rfl, _⟩ := pair
  rfl

end Tree

/-! ## What the rules say about their trees and texts -/

namespace Grammar

/-- Every leaf takes at least one character. -/
theorem Lexeme.length_lt {input rest : List Char} {value : Leaf}
    (lexeme : Lexeme input value rest) : rest.length < input.length := by
  have characters {input text rest : List Char} (inside : Characters input text rest) :
      rest.length < input.length := by
    induction inside with
    | close => simp
    | lineFeed _ ih | backslash _ ih | plain _ _ _ ih =>
        simp only [List.length_cons]
        omega
  cases lexeme with
  | string inside => exact Nat.lt_succ_of_lt (characters inside)
  | integer isDigits | decimal isDigits =>
      have nonempty := List.length_pos_iff.mpr isDigits.1
      simp only [List.length_append, List.length_cons]
      omega
  | token =>
      simp only [List.length_append, List.length_cons]
      omega

/-- No leaf starts with a parenthesis, a bracket or a point. -/
theorem Lexeme.head_not_mem {input rest : List Char} {value : Leaf}
    (lexeme : Lexeme input value rest) :
    ∀ ch ∈ input.head?, ch ∉ ['(', ')', '[', ']', '.'] := by
  have number {text : List Char} (starts : startsNumber text = true) :
      ∀ ch ∈ text.head?, ch ∉ ['(', ')', '[', ']', '.'] := by
    cases text with
    | nil => cases starts
    | cons first more =>
        simp only [List.head?_cons, Option.mem_def, Option.some.injEq]
        rintro ch rfl mem
        simp only [List.mem_cons, List.not_mem_nil, or_false] at mem
        rcases mem with rfl | rfl | rfl | rfl | rfl <;> cases starts
  cases lexeme with
  | string => simp
  | @integer negative digits _ _ isDigits => exact number (startsNumber_digits isDigits negative _)
  | @decimal negative digits fraction _ isDigits =>
      rw [List.append_assoc]
      exact number (startsNumber_digits isDigits negative _)
  | @token first name _ _ _ noOpening noClosing solid =>
      have noParen (ch : Char) (ends : endsToken ch = true) : first ≠ ch := by
        rintro rfl
        simp [solid first (by simp)] at ends
      have left := noParen '(' (by decide)
      have right := noParen ')' (by decide)
      have point := noParen '.' (by decide)
      simp [left, right, point, noOpening, noClosing]

theorem Marked.length_le {input inner : List Char} {modifier : Modifier}
    (marked : Marked input modifier inner) : inner.length ≤ input.length := by
  cases marked with
  | marked => exact Nat.le_succ _
  | unmarked => exact le_rfl

mutual

theorem Atom.length_lt {input rest : List Char} {tree : Tree} :
    Atom input tree rest → rest.length < input.length
  | .segments segment chain => Nat.lt_of_le_of_lt chain.length_le segment.length_lt

theorem Segment.length_lt {input rest : List Char} {modifier : Modifier} {tree : Tree} :
    Segment input modifier tree rest → rest.length < input.length
  | .body skips marked body =>
      body.length_lt.trans_le (marked.length_le.trans skips.length_le)

theorem Body.length_lt {modifier : Modifier} {input rest : List Char} {tree : Tree} :
    Body modifier input tree rest → rest.length < input.length
  | .leaf lexeme _ => lexeme.length_lt
  | .list items => Nat.lt_succ_of_lt items.length_lt
  | .record entries => Nat.lt_succ_of_lt entries.length_lt

theorem Items.length_lt {input rest : List Char} {items : List Tree} :
    Items input items rest → rest.length < input.length
  | .close skips => skips.length_le
  | .item item items => Nat.lt_trans items.length_lt item.length_lt

theorem Entries.length_lt {input rest : List Char} {fields : List (String × Tree)} :
    Entries input fields rest → rest.length < input.length
  | .close skips => skips.length_le
  | .entry entry _ entries => Nat.lt_trans entries.length_lt entry.length_lt

theorem Chain.length_le {input rest : List Char} {fields : List Tree} :
    Chain input fields rest → rest.length ≤ input.length
  | .stop skips _ => skips.length_le
  | .field skips segment _ chain => by
      have shorter := skips.length_le
      have consumed := segment.length_lt
      have behind := chain.length_le
      simp only [List.length_cons] at shorter
      omega

end

/-- Nothing is left to skip behind an atom. -/
theorem Chain.skips_self {input rest : List Char} {fields : List Tree} :
    Chain input fields rest → Skips rest rest
  | .stop skips _ => skips.self
  | .field _ _ _ chain => chain.skips_self

theorem Atom.skips_self {input rest : List Char} {tree : Tree} (atom : Atom input tree rest) :
    Skips rest rest := by
  obtain ⟨_, chain⟩ := atom
  exact chain.skips_self

/-- What stands behind a modifier is an unmarked tree other than a member expression, and a record
literal among them stands behind no modifier. -/
theorem Body.shape {modifier : Modifier} {input rest : List Char} {tree : Tree}
    (body : Body modifier input tree rest) :
    tree.isMember = false ∧ tree.modifier = .plain ∧
      ∀ fields, tree = .record fields → modifier = .plain := by
  cases body with
  | leaf | list => exact ⟨rfl, rfl, by simp⟩
  | record => exact ⟨rfl, rfl, fun _ _ => rfl⟩

theorem Segment.shape {input rest : List Char} {modifier : Modifier} {tree : Tree}
    (segment : Segment input modifier tree rest) :
    tree.isMember = false ∧ tree.modifier = .plain ∧
      ∀ fields, tree = .record fields → modifier = .plain := by
  obtain ⟨_, _, body⟩ := segment
  exact body.shape

/-- The fields of a chain are no member expressions. -/
theorem Chain.isMember_eq_false {input rest : List Char} {fields : List Tree}
    (chain : Chain input fields rest) : ∀ field ∈ fields, field.isMember = false := by
  induction fields generalizing input with
  | nil => simp
  | cons field fields ih =>
      cases chain with
      | @field _ _ _ _ modifier first _ _ segment _ chain =>
          intro other mem
          rcases List.mem_cons.mp mem with rfl | later
          · obtain ⟨noMember, _⟩ := segment.shape
            cases first <;> simp_all [Tree.isMember, Tree.withModifier]
          · exact ih chain other later

/-- There is one way to read a modifier. -/
theorem Marked.unique {input inner inner' : List Char}
    {mark mark' : Modifier} (first : Marked input mark inner)
    (second : Marked input mark' inner') : mark = mark' ∧ inner = inner' := by
  cases first with
  | marked known =>
      cases second with
      | marked known' =>
          rw [known] at known'
          cases known'
          exact ⟨rfl, rfl⟩
      | unmarked unknown =>
          rw [unknown _ rfl] at known
          cases known
  | unmarked unknown =>
      cases second with
      | marked known =>
          rw [unknown _ rfl] at known
          cases known
      | unmarked => exact ⟨rfl, rfl⟩

/-- A leaf is scanned wherever it stands in a source. -/
theorem Lexeme.scans {input rest : List Char} {value : Leaf} (lexeme : Lexeme input value rest)
    (position : Position) : Scans (Cursor.scanLeaf ⟨input, position⟩) value rest := by
  have starts := lexeme.head_not_mem
  have noOpening : input.head? ≠ some '[' := fun head => by simpa using starts '[' head
  have noClosing : input.head? ≠ some ']' := fun head => by simpa using starts ']' head
  exact ((scanLeaf_iff position noOpening noClosing).mpr lexeme).1

/-- There is one way to read the inside of a string. -/
theorem Characters.unique {input text text' rest rest' : List Char}
    (first : Characters input text rest) (second : Characters input text' rest') :
    text = text' ∧ rest = rest' :=
  ((scanCharacters_iff input .start text rest).mpr first).unique
    ((scanCharacters_iff input .start text' rest').mpr second)

/-- There is one way to read a leaf. -/
theorem Lexeme.unique {input rest rest' : List Char} {value value' : Leaf}
    (first : Lexeme input value rest) (second : Lexeme input value' rest') :
    value = value' ∧ rest = rest' :=
  (first.scans .start).unique (second.scans .start)

/-- A leaf, a list or a record literal starts with a character that closes nothing and is no
point. -/
theorem Body.visible {modifier : Modifier} {input rest : List Char} {tree : Tree}
    (body : Body modifier input tree rest) :
    ∃ ch more, input = ch :: more ∧ ch ≠ ')' ∧ ch ≠ ']' ∧ ch ≠ '.' := by
  cases body with
  | list => exact ⟨_, _, rfl, by decide, by decide, by decide⟩
  | record => exact ⟨_, _, rfl, by decide, by decide, by decide⟩
  | leaf lexeme =>
      have starts := lexeme.head_not_mem
      have nonempty := lexeme.length_lt
      cases input with
      | nil => exact absurd nonempty (Nat.not_lt_zero _)
      | cons ch more => exact ⟨ch, more, rfl, by simp_all, by simp_all, by simp_all⟩

/-- Behind separators and comments an atom starts with a character that closes nothing and is no
point. -/
theorem Atom.visible {input seen rest : List Char} {tree : Tree} (atom : Atom input tree rest)
    (skips : Skips input seen) :
    ∃ ch more, seen = ch :: more ∧ ch ≠ ')' ∧ ch ≠ ']' ∧ ch ≠ '.' := by
  obtain ⟨⟨skips', marked, body⟩, _⟩ := atom
  have same := skips.unique skips'
  subst same
  cases marked with
  | marked known => refine ⟨_, _, rfl, ?_, ?_, ?_⟩ <;> rintro rfl <;> cases known
  | unmarked => exact body.visible

-- The grammar is unambiguous: of two derivations over one text, the first decides the second. The
-- recursion is on the first derivation.
mutual

theorem Atom.unique {input rest rest' : List Char} {tree tree' : Tree} :
    Atom input tree rest → Atom input tree' rest' → tree = tree' ∧ rest = rest'
  | .segments segment chain, .segments segment' chain' => by
      obtain ⟨rfl, rfl, rfl⟩ := segment.unique segment'
      obtain ⟨rfl, rfl⟩ := chain.unique chain'
      exact ⟨rfl, rfl⟩
  termination_by structural first => first

theorem Segment.unique {input rest rest' : List Char} {modifier modifier' : Modifier}
    {tree tree' : Tree} :
    Segment input modifier tree rest → Segment input modifier' tree' rest' →
      modifier = modifier' ∧ tree = tree' ∧ rest = rest'
  | .body skips marked body, .body skips' marked' body' => by
      cases skips.unique skips'
      obtain ⟨rfl, rfl⟩ := marked.unique marked'
      exact ⟨rfl, body.unique body'⟩
  termination_by structural first => first

theorem Body.unique {modifier : Modifier} {input rest rest' : List Char} {tree tree' : Tree} :
    Body modifier input tree rest → Body modifier input tree' rest' → tree = tree' ∧ rest = rest'
  | .leaf lexeme _, .leaf lexeme' _ => by
      obtain ⟨rfl, rfl⟩ := lexeme.unique lexeme'
      exact ⟨rfl, rfl⟩
  | .leaf lexeme _, .list _ => absurd (lexeme.head_not_mem '(' rfl) (by simp)
  | .leaf lexeme _, .record _ => absurd (lexeme.head_not_mem '[' rfl) (by simp)
  | .list _, .leaf lexeme _ => absurd (lexeme.head_not_mem '(' rfl) (by simp)
  | .list items, .list items' => by
      obtain ⟨rfl, rfl⟩ := items.unique items'
      exact ⟨rfl, rfl⟩
  | .record _, .leaf lexeme _ => absurd (lexeme.head_not_mem '[' rfl) (by simp)
  | .record entries, .record entries' => by
      obtain ⟨rfl, rfl⟩ := entries.unique entries'
      exact ⟨rfl, rfl⟩
  termination_by structural first => first

theorem Items.unique {input rest rest' : List Char} {items items' : List Tree} :
    Items input items rest → Items input items' rest' → items = items' ∧ rest = rest'
  | .close skips, .close skips' => by
      cases skips.unique skips'
      exact ⟨rfl, rfl⟩
  | .close skips, .item item _ => by
      obtain ⟨_, _, same, noClosing, _⟩ := item.visible skips
      cases same
      exact absurd rfl noClosing
  | .item item _, .close skips => by
      obtain ⟨_, _, same, noClosing, _⟩ := item.visible skips
      cases same
      exact absurd rfl noClosing
  | .item item items, .item item' items' => by
      obtain ⟨rfl, rfl⟩ := item.unique item'
      obtain ⟨rfl, rfl⟩ := items.unique items'
      exact ⟨rfl, rfl⟩
  termination_by structural first => first

theorem Entries.unique {input rest rest' : List Char} {fields fields' : List (String × Tree)} :
    Entries input fields rest → Entries input fields' rest' → fields = fields' ∧ rest = rest'
  | .close skips, .close skips' => by
      cases skips.unique skips'
      exact ⟨rfl, rfl⟩
  | .close skips, .entry entry _ _ => by
      obtain ⟨_, _, same, _, noClosing, _⟩ := entry.visible skips
      cases same
      exact absurd rfl noClosing
  | .entry entry _ _, .close skips => by
      obtain ⟨_, _, same, _, noClosing, _⟩ := entry.visible skips
      cases same
      exact absurd rfl noClosing
  | .entry entry spelled entries, .entry entry' spelled' entries' => by
      obtain ⟨same, rfl⟩ := entry.unique entry'
      obtain ⟨rfl, rfl⟩ := entries.unique entries'
      cases same
      rcases spelled with rfl | rfl <;> rcases spelled' with same | same <;> cases same
      all_goals exact ⟨rfl, rfl⟩
  termination_by structural first => first

theorem Chain.unique {input rest rest' : List Char} {fields fields' : List Tree} :
    Chain input fields rest → Chain input fields' rest' → fields = fields' ∧ rest = rest'
  | .stop skips _, .stop skips' _ => by
      cases skips.unique skips'
      exact ⟨rfl, rfl⟩
  | .stop skips noPoint, .field skips' _ _ _ => by
      cases skips.unique skips'
      exact absurd rfl noPoint
  | .field skips _ _ _, .stop skips' noPoint => by
      cases skips.unique skips'
      exact absurd rfl noPoint
  | .field skips segment _ chain, .field skips' segment' _ chain' => by
      cases skips.unique skips'
      obtain ⟨rfl, rfl, rfl⟩ := segment.unique segment'
      obtain ⟨rfl, rfl⟩ := chain.unique chain'
      exact ⟨rfl, rfl⟩
  termination_by structural first => first

end

/-- The atom of a chain with a modifier in front. -/
theorem build_segments {first : Tree} {modifier : Modifier} (fields : List Tree) (heap : Heap)
    (allowed : ∀ entries, first = .record entries → modifier = .plain) :
    ((first.chain fields).withModifier modifier).build heap =
      (((first.build heap).1.chain (Tree.buildItems fields (first.build heap).2).1).withModifier
          modifier,
        (Tree.buildItems fields (first.build heap).2).2) := by
  have allowed' : ∀ entries, first.chain fields = .record entries → modifier = .plain := by
    cases fields using List.reverseRecOn with
    | nil => exact allowed
    | append_singleton fields field => simp [Tree.chain]
  rw [Tree.build_withModifier allowed', Tree.build_chain]

theorem modifier_build_segments {input middle : List Char} {modifier : Modifier} {first : Tree}
    {fields : List Tree} {heap : Heap} (segment : Segment input modifier first middle) :
    (((first.chain fields).withModifier modifier).build heap).1.modifier = modifier := by
  rw [build_segments fields heap segment.shape.2.2, Atom.modifier_withModifier]

/-- Joining the atom behind a point to the atom in front of it appends the segments of the one to
the other. -/
theorem join_segments {input middle rest : List Char} {modifier : Modifier} {first : Tree}
    {fields : List Tree} (segment : Segment input modifier first middle)
    (chain : Chain middle fields rest) (target : RecordLisp.Atom) (heap : Heap) :
    target.join (((first.chain fields).withModifier modifier).build heap).1 =
        target.chain (Tree.buildItems (first.withModifier modifier :: fields) heap).1 ∧
      (((first.chain fields).withModifier modifier).build heap).2 =
        (Tree.buildItems (first.withModifier modifier :: fields) heap).2 := by
  obtain ⟨noMember, unmarked, allowed⟩ := segment.shape
  rw [build_segments fields heap allowed, Atom.join_chain]
  · simp [Tree.buildItems, Tree.build_withModifier allowed]
  · rw [Tree.modifier_build, unmarked]
  · rw [Tree.isMember_build, noMember]
  · exact Tree.isMember_buildItems chain.isMember_eq_false _

/-- Separators and comments in front of an atom change nothing. -/
theorem atom_iff_of_skips {input seen rest : List Char} {tree : Tree} (skips : Skips input seen) :
    Atom input tree rest ↔ Atom seen tree rest := by
  constructor
  · rintro ⟨⟨skips', marked, body⟩, chain⟩
    have same := skips.unique skips'
    subst same
    exact .segments (.body skips.self marked body) chain
  · rintro ⟨⟨skips', marked, body⟩, chain⟩
    have same := skips.self.unique skips'
    subst same
    exact .segments (.body skips marked body) chain

/-! ### The rule for what comes next

The next character decides which rule a phrase follows. -/

section Next

variable {input seen inner more rest : List Char} {modifier : Modifier} {tree : Tree}
  {items fields : List Tree} {entries : List (String × Tree)}

theorem body_list_iff : Body modifier ('(' :: input) tree rest ↔
    ∃ items, tree = .list .plain items ∧ Items input items rest := by
  constructor
  · intro body
    cases body with
    | leaf lexeme => exact absurd (lexeme.head_not_mem '(' rfl) (by simp)
    | list items => exact ⟨_, rfl, items⟩
  · rintro ⟨items, rfl, inside⟩
    exact .list inside

theorem body_record_iff : Body modifier ('[' :: input) tree rest ↔
    modifier = .plain ∧ ∃ entries, tree = .record entries ∧ Entries input entries rest := by
  constructor
  · intro body
    cases body with
    | leaf lexeme => exact absurd (lexeme.head_not_mem '[' rfl) (by simp)
    | record entries => exact ⟨rfl, _, rfl, entries⟩
  · rintro ⟨rfl, entries, rfl, inside⟩
    exact .record inside

theorem body_leaf_iff (noList : input.head? ≠ some '(') (noRecord : input.head? ≠ some '[') :
    Body modifier input tree rest ↔ ∃ value, tree = .leaf .plain value ∧
      Lexeme input value rest ∧ (ReadM.isLiteral value = true → modifier = .plain) := by
  constructor
  · intro body
    cases body with
    | leaf lexeme allowed => exact ⟨_, rfl, lexeme, allowed⟩
    | list => exact absurd rfl noList
    | record => exact absurd rfl noRecord
  · rintro ⟨value, rfl, lexeme, allowed⟩
    exact .leaf lexeme allowed

theorem items_close_iff (skips : Skips input (')' :: more)) :
    Items input items rest ↔ items = [] ∧ rest = more := by
  constructor
  · intro inside
    cases inside with
    | close closes =>
        cases skips.unique closes
        exact ⟨rfl, rfl⟩
    | item atom =>
        obtain ⟨_, _, same, noClosing, _⟩ := atom.visible skips
        cases same
        exact absurd rfl noClosing
  · rintro ⟨rfl, rfl⟩
    exact .close skips

theorem items_item_iff (skips : Skips input seen) (noClosing : seen.head? ≠ some ')') :
    Items input items rest ↔
      ∃ item others middle, items = item :: others ∧ Atom seen item middle ∧
        Items middle others rest := by
  constructor
  · intro inside
    cases inside with
    | close closes =>
        cases skips.unique closes
        exact absurd rfl noClosing
    | item atom others => exact ⟨_, _, _, rfl, (atom_iff_of_skips skips).mp atom, others⟩
  · rintro ⟨item, others, middle, rfl, atom, inside⟩
    exact .item ((atom_iff_of_skips skips).mpr atom) inside

/-- A list does not end with the text. -/
theorem not_items_of_end (skips : Skips input []) : ¬ Items input items rest := by
  rw [items_item_iff skips nofun]
  rintro ⟨_, _, _, _, atom, _⟩
  exact absurd atom.length_lt (Nat.not_lt_zero _)

theorem entries_close_iff (skips : Skips input (']' :: more)) :
    Entries input entries rest ↔ entries = [] ∧ rest = more := by
  constructor
  · intro inside
    cases inside with
    | close closes =>
        cases skips.unique closes
        exact ⟨rfl, rfl⟩
    | entry atom =>
        obtain ⟨_, _, same, _, noClosing, _⟩ := atom.visible skips
        cases same
        exact absurd rfl noClosing
  · rintro ⟨rfl, rfl⟩
    exact .close skips

theorem entries_entry_iff (skips : Skips input seen) (noClosing : seen.head? ≠ some ']') :
    Entries input entries rest ↔
      ∃ entry name value others middle, entries = (name, value) :: others ∧
      Atom seen entry middle ∧ entry.IsPair name value ∧ Entries middle others rest := by
  constructor
  · intro inside
    cases inside with
    | close closes =>
        cases skips.unique closes
        exact absurd rfl noClosing
    | entry atom spelled others =>
        exact ⟨_, _, _, _, _, rfl, (atom_iff_of_skips skips).mp atom, ⟨_, _, _, rfl, spelled⟩,
          others⟩
  · rintro ⟨_, name, value, others, middle, rfl, atom, ⟨_, _, _, rfl, spelled⟩, inside⟩
    exact .entry ((atom_iff_of_skips skips).mpr atom) spelled inside

/-- A record literal does not end with the text. -/
theorem not_entries_of_end (skips : Skips input []) : ¬ Entries input entries rest := by
  rw [entries_entry_iff skips nofun]
  rintro ⟨_, _, _, _, _, _, atom, _⟩
  exact absurd atom.length_lt (Nat.not_lt_zero _)

theorem chain_stop_iff (skips : Skips input seen) (noPoint : seen.head? ≠ some '.') :
    Chain input fields rest ↔ fields = [] ∧ rest = seen := by
  constructor
  · intro chain
    cases chain with
    | stop skips' =>
        cases skips.unique skips'
        exact ⟨rfl, rfl⟩
    | field skips' =>
        cases skips.unique skips'
        exact absurd rfl noPoint
  · rintro ⟨rfl, rfl⟩
    exact .stop skips noPoint

theorem chain_field_iff (skips : Skips input ('.' :: inner)) :
    Chain input fields rest ↔
      ∃ mark field others middle, fields = field.withModifier mark :: others ∧
      Segment inner mark field middle ∧ mark ≠ .expand ∧ Chain middle others rest := by
  constructor
  · intro chain
    cases chain with
    | stop skips' noPoint =>
        cases skips.unique skips'
        exact absurd rfl noPoint
    | field skips' segment noExpand others =>
        cases skips.unique skips'
        exact ⟨_, _, _, _, rfl, segment, noExpand, others⟩
  · rintro ⟨mark, field, others, middle, rfl, segment, noExpand, chain⟩
    exact .field skips segment noExpand chain

/-- Behind its modifier an atom is its first segment and the fields behind that. -/
theorem atom_iff (skips : Skips input seen) (marked : Marked seen modifier inner) :
    Atom input tree rest ↔ ∃ first fields middle,
      tree = (first.chain fields).withModifier modifier ∧ Body modifier inner first middle ∧
        Chain middle fields rest := by
  constructor
  · rintro ⟨⟨skips', marked', body⟩, chain⟩
    cases skips.unique skips'
    obtain ⟨rfl, rfl⟩ := marked.unique marked'
    exact ⟨_, _, _, rfl, body, chain⟩
  · rintro ⟨first, fields, middle, rfl, body, chain⟩
    exact .segments (.body skips marked body) chain

end Next

end Grammar

/-! ## The parts of the reader -/

namespace ReadM

variable {α β : Type}

/-- An action that succeeds on a text and leaves a text, wherever in its source the text stands. -/
def Reads (action : ReadM α) (input : List Char) (position : Position) (heap : Heap) (value : α)
    (rest : List Char) (heap' : Heap) : Prop :=
  ∃ position', Gives action ⟨⟨input, position⟩, heap⟩ value ⟨⟨rest, position'⟩, heap'⟩

section Primitives

variable {input rest : List Char} {position : Position} {heap heap' : Heap}

theorem reads_pure_iff {result value : α} :
    Reads (pure result) input position heap value rest heap' ↔
      value = result ∧ rest = input ∧ heap' = heap := by
  constructor
  · rintro ⟨_, given⟩
    obtain ⟨rfl, same⟩ := gives_pure_iff.mp given
    cases same
    exact ⟨rfl, rfl, rfl⟩
  · rintro ⟨rfl, rfl, rfl⟩
    exact ⟨position, rfl⟩

theorem not_reads_throw {fault : Fault} {value : α} :
    ¬ Reads (throw fault) input position heap value rest heap' := by
  rintro ⟨_, given⟩
  exact not_gives_throw given

theorem reads_bind_iff {action : ReadM α} {next : α → ReadM β} {value : β} :
    Reads (action >>= next) input position heap value rest heap' ↔
      ∃ first middle position' heapMiddle,
        Gives action ⟨⟨input, position⟩, heap⟩ first ⟨⟨middle, position'⟩, heapMiddle⟩ ∧
          Reads (next first) middle position' heapMiddle value rest heap' := by
  constructor
  · rintro ⟨last, given⟩
    obtain ⟨first, ⟨⟨middle, position'⟩, heapMiddle⟩, begins, goesOn⟩ := gives_bind_iff.mp given
    exact ⟨first, middle, position', heapMiddle, begins, last, goesOn⟩
  · rintro ⟨first, middle, position', heapMiddle, begins, last, goesOn⟩
    exact ⟨last, begins.bind goesOn⟩

theorem reads_cursor_bind_iff {next : Cursor → ReadM β} {value : β} :
    Reads (cursor >>= next) input position heap value rest heap' ↔
      Reads (next ⟨input, position⟩) input position heap value rest heap' :=
  Iff.rfl

theorem reads_skipTrivia_bind_iff {next : Unit → ReadM β} {value : β} :
    Reads (skipTrivia >>= next) input position heap value rest heap' ↔
      Reads (next ()) (Cursor.skipTriviaFrom false input position).rest
        (Cursor.skipTriviaFrom false input position).position heap value rest heap' :=
  Iff.rfl

theorem reads_advance_bind_iff {ch : Char} {next : Unit → ReadM β} {value : β} :
    Reads (advance >>= next) (ch :: input) position heap value rest heap' ↔
      Reads (next ()) input (position.next ch) heap value rest heap' :=
  Iff.rfl

theorem not_reads_fail {cause : SyntaxFault} {value : α} :
    ¬ Reads (fail cause) input position heap value rest heap' := by
  unfold fail
  rw [reads_cursor_bind_iff]
  exact not_reads_throw

theorem gives_scan_iff {scanner : Cursor → Scanned α} {value : α} {state after : ReadState} :
    Gives (scan scanner) state value after ↔
      ∃ cursor, scanner state.cursor = (.ok value, cursor) ∧ after = { state with cursor } := by
  have unfolded : outcome (scan scanner) state =
      ((scanner state.cursor).1, { state with cursor := (scanner state.cursor).2 }) := by
    have atCursor : outcome cursor state = (.ok state.cursor, state) := rfl
    unfold scan
    rw [outcome_bind_of_ok atCursor]
    rcases scanner state.cursor with ⟨_ | _, after⟩ <;> rfl
  unfold Gives
  rw [unfolded]
  constructor
  · intro same
    obtain ⟨given, moved⟩ := Prod.mk.inj same
    exact ⟨_, Prod.ext given rfl, moved.symm⟩
  · rintro ⟨cursor, same, rfl⟩
    rw [same]

theorem reads_alloc_iff {record : Record} {id : RecordId} :
    Reads (alloc record) input position heap id rest heap' ↔
      id = (heap.allocRecord record).1 ∧ rest = input ∧ heap' = (heap.allocRecord record).2 := by
  constructor
  · rintro ⟨_, given⟩
    cases given
    exact ⟨rfl, rfl, rfl⟩
  · rintro ⟨rfl, rfl, rfl⟩
    exact ⟨position, rfl⟩

end Primitives

/-- A reader of atoms that does what the grammar says on texts shorter than a bound. -/
def FollowsGrammar (read : ReadM Atom) (bound : Nat) : Prop :=
  ∀ (input : List Char) (position : Position) (heap heap' : Heap) (value : Atom)
    (rest : List Char), input.length < bound →
    (Reads read input position heap value rest heap' ↔
      ∃ tree, Grammar.Atom input tree rest ∧ tree.build heap = (value, heap'))

section Parts

variable {read : ReadM Atom} {bound : Nat} {rest : List Char} {heap' : Heap}

/-- What reading an atom first comes down to. -/
theorem exists_atom_of_reads_bind (follows : FollowsGrammar read bound) {input : List Char}
    (short : input.length < bound) {position : Position} {heap : Heap} {next : Atom → ReadM β}
    {value : β} (reads : Reads (read >>= next) input position heap value rest heap') :
    ∃ tree middle position', Grammar.Atom input tree middle ∧
      Reads (next (tree.build heap).1) middle position' (tree.build heap).2 value rest heap' := by
  obtain ⟨item, middle, position', heapMiddle, begins, goesOn⟩ := reads_bind_iff.mp reads
  obtain ⟨tree, atom, built⟩ :=
    (follows input position heap heapMiddle item middle short).mp ⟨position', begins⟩
  refine ⟨tree, middle, position', atom, ?_⟩
  rw [built]
  exact goesOn

/-- Reading an atom first succeeds where there is one. -/
theorem reads_bind_of_atom (follows : FollowsGrammar read bound) {input middle : List Char}
    (short : input.length < bound) {position : Position} {heap : Heap} {next : Atom → ReadM β}
    {value : β} {tree : Tree} (atom : Grammar.Atom input tree middle)
    (goesOn : ∀ position', Reads (next (tree.build heap).1) middle position' (tree.build heap).2
      value rest heap') :
    Reads (read >>= next) input position heap value rest heap' := by
  obtain ⟨position', begins⟩ :=
    (follows input position heap _ _ middle short).mpr ⟨tree, atom, rfl⟩
  exact reads_bind_iff.mpr ⟨_, middle, position', _, begins, goesOn position'⟩

/-- Reading an atom first, when the place behind it makes no difference to what comes next. -/
theorem reads_atom_bind_iff (follows : FollowsGrammar read bound) {input : List Char}
    (short : input.length < bound) {position : Position} {heap : Heap} {next : Atom → ReadM β}
    {value : β} (goesOn : Tree → List Char → Prop)
    (reads_iff : ∀ tree middle position', Grammar.Atom input tree middle →
      (Reads (next (tree.build heap).1) middle position' (tree.build heap).2 value rest heap' ↔
        goesOn tree middle)) :
    Reads (read >>= next) input position heap value rest heap' ↔
      ∃ tree middle, Grammar.Atom input tree middle ∧ goesOn tree middle := by
  constructor
  · intro reads
    obtain ⟨tree, middle, position', atom, reads⟩ := exists_atom_of_reads_bind follows short reads
    exact ⟨tree, middle, atom, (reads_iff tree middle position' atom).mp reads⟩
  · rintro ⟨tree, middle, atom, goes⟩
    exact reads_bind_of_atom follows short atom fun position' =>
      (reads_iff tree middle position' atom).mpr goes

/-- A final change of the value that was read. -/
theorem reads_bind_pure_iff {input : List Char} {position : Position} {heap : Heap}
    {action : ReadM α} {change : α → β} {value : β} :
    Reads (action >>= fun result => pure (change result)) input position heap value rest heap' ↔
      ∃ result, Reads action input position heap result rest heap' ∧ value = change result := by
  rw [reads_bind_iff]
  constructor
  · rintro ⟨result, middle, position', heapMiddle, begins, ends⟩
    obtain ⟨rfl, rfl, rfl⟩ := reads_pure_iff.mp ends
    exact ⟨result, ⟨position', begins⟩, rfl⟩
  · rintro ⟨result, ⟨position', begins⟩, rfl⟩
    exact ⟨result, rest, position', heap', begins, reads_pure_iff.mpr ⟨rfl, rfl, rfl⟩⟩

/-- Separators and comments are skipped up to what the rule for skipping says. -/
theorem skipTrivia_bind_eq (input : List Char) (position : Position) :
    ∃ seen position', Grammar.Skips input seen ∧
      ∀ (heap heap' : Heap) (next : Unit → ReadM α) (value : α) (rest : List Char),
        Reads (skipTrivia >>= next) input position heap value rest heap' ↔
          Reads (next ()) seen position' heap value rest heap' :=
  ⟨_, _, (Grammar.skips_iff position).mpr rfl, fun _ _ _ _ _ => reads_skipTrivia_bind_iff⟩

theorem items_iff (follows : FollowsGrammar read bound) (opened : Position) (rounds : Nat)
    {input : List Char} (position : Position) (heap : Heap) (values : List Atom)
    (short : input.length < bound) (enough : input.length < rounds) :
    Reads (items read opened rounds) input position heap values rest heap' ↔
      ∃ trees, Grammar.Items input trees rest ∧ Tree.buildItems trees heap = (values, heap') := by
  induction rounds generalizing input position heap values with
  | zero => exact absurd enough (Nat.not_lt_zero _)
  | succ rounds ih =>
      obtain ⟨seen, position', skips, skip_iff⟩ := @skipTrivia_bind_eq (List Atom) input position
      have shorter := skips.length_le
      rw [items, skip_iff, reads_cursor_bind_iff, Cursor.peek?]
      split
      · rename_i atEnd
        cases List.head?_eq_none_iff.mp atEnd
        refine iff_of_false not_reads_throw ?_
        rintro ⟨trees, inside, _⟩
        exact Grammar.not_items_of_end skips inside
      · rename_i closing
        obtain ⟨more, rfl⟩ := List.head?_eq_some_iff.mp closing
        rw [reads_advance_bind_iff, reads_pure_iff]
        simp only [Grammar.items_close_iff skips]
        constructor
        · rintro ⟨rfl, rfl, rfl⟩
          exact ⟨[], ⟨rfl, rfl⟩, rfl⟩
        · rintro ⟨_, ⟨rfl, rfl⟩, built⟩
          cases built
          exact ⟨rfl, rfl, rfl⟩
      · rename_i noClosing starts
        have starts : seen.head? = some _ := starts
        have noClosing : seen.head? ≠ some ')' := by simpa [starts] using noClosing
        rw [reads_atom_bind_iff follows (by omega)
          (fun tree middle => ∃ trees, Grammar.Items middle trees rest ∧
            Tree.buildItems (tree :: trees) heap = (values, heap'))]
        · simp only [Grammar.items_item_iff skips noClosing]
          constructor
          · rintro ⟨tree, middle, atom, trees, inside, built⟩
            exact ⟨_, ⟨tree, trees, middle, rfl, atom, inside⟩, built⟩
          · rintro ⟨_, ⟨tree, trees, middle, rfl, atom, inside⟩, built⟩
            exact ⟨tree, middle, atom, trees, inside, built⟩
        · intro tree middle positionMiddle atom
          have less := atom.length_lt
          rw [reads_bind_pure_iff]
          simp only [ih positionMiddle _ _ (show middle.length < bound by omega)
            (show middle.length < rounds by omega)]
          constructor
          · rintro ⟨others, ⟨trees, inside, built⟩, rfl⟩
            exact ⟨trees, inside, by simp [Tree.buildItems, built]⟩
          · rintro ⟨trees, inside, built⟩
            cases built
            exact ⟨_, ⟨trees, inside, rfl⟩, rfl⟩

/-- The entry of a record literal is a list of a name and a value. -/
theorem field_eq_ok_iff {entry : Atom} {name : String} {value : Atom} :
    field entry = .ok (name, value) ↔
      ∃ modifier key, entry = .list modifier [key, value] ∧ key.name? = some name := by
  constructor
  · intro accepted
    unfold field at accepted
    split at accepted
    · cases accepted
    · rename_i key other listed
      split at accepted
      · cases accepted
        cases entry <;> cases listed
        exact ⟨_, key, rfl, ‹_›⟩
      · cases accepted
    · cases accepted
  · rintro ⟨modifier, key, rfl, named⟩
    simp [field, Atom.list?, named]

/-- A built atom is accepted as an entry when its tree is a list of a name and a value. -/
theorem field_build_eq_ok_iff {tree : Tree} {heap : Heap} {name : String} {value : Atom} :
    field (tree.build heap).1 = .ok (name, value) ↔
      ∃ valueTree, tree.IsPair name valueTree ∧ (valueTree.build heap).1 = value := by
  rw [field_eq_ok_iff]
  constructor
  · rintro ⟨modifier, key, built, named⟩
    obtain ⟨parts, rfl, builtParts⟩ := Tree.build_eq_list (Prod.ext built rfl)
    obtain ⟨nameTree, valueTree, rfl⟩ : ∃ a b, parts = [a, b] := by
      rcases parts with _ | ⟨a, _ | ⟨b, _ | _⟩⟩
      case cons.cons.nil => exact ⟨a, b, rfl⟩
      all_goals simp [Tree.buildItems] at builtParts
    simp only [Tree.buildItems, Prod.mk.injEq, List.cons.injEq, and_true] at builtParts
    obtain ⟨⟨builtName, builtValue⟩, _⟩ := builtParts
    obtain ⟨onName, leaf, rfl, spelled, _⟩ := Tree.build_eq_named (Prod.ext builtName rfl) named
    exact ⟨valueTree, ⟨modifier, onName, leaf, rfl, spelled⟩, builtValue⟩
  · rintro ⟨valueTree, ⟨onEntry, onName, leaf, rfl, spelled⟩, rfl⟩
    exact ⟨onEntry, .leaf onName leaf, rfl, by rcases spelled with rfl | rfl <;> rfl⟩

/-- Reading goes on behind an atom that is accepted as an entry. -/
theorem reads_field_iff {entry : Atom} {start : Cursor} (next : String → Atom → ReadM α) {value : α}
    {input : List Char} {position : Position} {heap : Heap} :
    Reads (match field entry with
        | .error cause => throw (start.fault cause)
        | .ok (name, value) => next name value) input position heap value rest heap' ↔
      ∃ name field', field entry = .ok (name, field') ∧
        Reads (next name field') input position heap value rest heap' := by
  split
  · rename_i refused
    refine iff_of_false not_reads_throw ?_
    rintro ⟨name, field', accepted, _⟩
    cases refused.symm.trans accepted
  · rename_i name field' accepted
    constructor
    · exact fun goesOn => ⟨name, field', accepted, goesOn⟩
    · rintro ⟨_, _, accepted', goesOn⟩
      cases accepted.symm.trans accepted'
      exact goesOn

theorem entries_iff (follows : FollowsGrammar read bound) (opened : Position) (rounds : Nat)
    {input : List Char} (position : Position) (heap : Heap) (record result : Record)
    (short : input.length < bound) (enough : input.length < rounds) :
    Reads (entries read opened rounds record) input position heap result rest heap' ↔
      ∃ trees fields, Grammar.Entries input trees rest ∧
        Tree.buildFields trees heap = (fields, heap') ∧ result = record.insertAll fields := by
  induction rounds generalizing input position heap record with
  | zero => exact absurd enough (Nat.not_lt_zero _)
  | succ rounds ih =>
      obtain ⟨seen, position', skips, skip_iff⟩ := @skipTrivia_bind_eq Record input position
      have shorter := skips.length_le
      rw [entries, skip_iff, reads_cursor_bind_iff, Cursor.peek?]
      split
      · rename_i atEnd
        cases List.head?_eq_none_iff.mp atEnd
        refine iff_of_false not_reads_throw ?_
        rintro ⟨trees, fields, inside, _⟩
        exact Grammar.not_entries_of_end skips inside
      · rename_i closing
        obtain ⟨more, rfl⟩ := List.head?_eq_some_iff.mp closing
        rw [reads_advance_bind_iff, reads_pure_iff]
        simp only [Grammar.entries_close_iff skips]
        constructor
        · rintro ⟨rfl, rfl, rfl⟩
          exact ⟨[], [], ⟨rfl, rfl⟩, rfl, rfl⟩
        · rintro ⟨_, fields, ⟨rfl, rfl⟩, built, rfl⟩
          cases built
          exact ⟨rfl, rfl, rfl⟩
      · rename_i noClosing starts
        have starts : seen.head? = some _ := starts
        have noClosing : seen.head? ≠ some ']' := by simpa [starts] using noClosing
        rw [reads_atom_bind_iff follows (by omega)
          (fun entry middle => ∃ name value, field (entry.build heap).1 = .ok (name, value) ∧
            ∃ trees fields, Grammar.Entries middle trees rest ∧
              Tree.buildFields trees (entry.build heap).2 = (fields, heap') ∧
                result = (record.insert name value).insertAll fields)]
        · simp only [Grammar.entries_entry_iff skips noClosing]
          constructor
          · rintro ⟨entry, middle, atom, name, value, accepted, trees, fields, inside, built, rfl⟩
            obtain ⟨valueTree, pair, rfl⟩ := field_build_eq_ok_iff.mp accepted
            rw [pair.build_snd] at built
            refine ⟨_, (name, (valueTree.build heap).1) :: fields,
              ⟨entry, name, valueTree, trees, middle, rfl, atom, pair, inside⟩, ?_, rfl⟩
            simp [Tree.buildFields, built]
          · rintro ⟨_, _, ⟨entry, name, valueTree, trees, middle, rfl, atom, pair, inside⟩,
              built, rfl⟩
            cases built
            refine ⟨entry, middle, atom, name, _, field_build_eq_ok_iff.mpr ⟨valueTree, pair, rfl⟩,
              trees, _, inside, ?_, rfl⟩
            rw [pair.build_snd]
        · intro entry middle positionMiddle atom
          have less := atom.length_lt
          refine (reads_field_iff fun name value =>
            entries read opened rounds (record.insert name value)).trans ?_
          simp only [ih positionMiddle _ _ (show middle.length < bound by omega)
            (show middle.length < rounds by omega)]

/-- A leaf is read as the rules for leaves say. -/
theorem leaf_iff (modifier : Modifier) {input : List Char} (position : Position) (heap : Heap)
    (value : Atom) (noOpening : input.head? ≠ some '[') (noClosing : input.head? ≠ some ']') :
    Reads (leaf modifier) input position heap value rest heap' ↔
      ∃ result, Grammar.Lexeme input result rest ∧ (isLiteral result = true → modifier = .plain) ∧
        value = .leaf .plain result ∧ heap' = heap := by
  rw [leaf, reads_cursor_bind_iff, reads_bind_iff]
  constructor
  · rintro ⟨result, middle, positionMiddle, heapMiddle, begins, goesOn⟩
    obtain ⟨after, scanned, moved⟩ := gives_scan_iff.mp begins
    cases moved
    split at goesOn
    · exact absurd goesOn not_reads_throw
    · rename_i allowed
      split at goesOn
      · exact absurd goesOn not_reads_throw
      · rename_i nonempty
        obtain ⟨rfl, rfl, rfl⟩ := reads_pure_iff.mp goesOn
        refine ⟨result, ?_, ?_, rfl, rfl⟩
        · exact (scanLeaf_iff position noOpening noClosing).mp ⟨⟨_, scanned, rfl⟩, nonempty⟩
        · intro literal
          by_contra marked
          exact allowed ⟨marked, literal⟩
  · rintro ⟨result, lexeme, allowed, rfl, rfl⟩
    obtain ⟨⟨⟨_, positionMiddle⟩, scanned, rfl⟩, nonempty⟩ :=
      (scanLeaf_iff position noOpening noClosing).mpr lexeme
    refine ⟨result, _, positionMiddle, heap', gives_scan_iff.mpr ⟨_, scanned, rfl⟩, ?_⟩
    rw [if_neg (fun marked => marked.1 (allowed marked.2)), if_neg nonempty]
    exact reads_pure_iff.mpr ⟨rfl, rfl, rfl⟩

/-- A list is read as the rule for lists says. -/
theorem list_iff (follows : FollowsGrammar read bound) (modifier : Modifier) (opened : Position)
    (rounds : Nat) {input : List Char} (position : Position) (heap : Heap) (value : Atom)
    (short : input.length < bound) (enough : input.length < rounds) :
    Reads (items read opened rounds >>= fun items => pure (.ofList items)) input position heap value
        rest heap' ↔
      ∃ tree, Grammar.Body modifier ('(' :: input) tree rest ∧
        tree.build heap = (value, heap') := by
  rw [reads_bind_pure_iff]
  simp only [Grammar.body_list_iff, items_iff follows opened rounds position heap _ short enough]
  constructor
  · rintro ⟨items, ⟨trees, inside, built⟩, rfl⟩
    refine ⟨_, ⟨trees, rfl, inside⟩, ?_⟩
    simp [Tree.build, built]
  · rintro ⟨_, ⟨trees, rfl, inside⟩, built⟩
    cases built
    exact ⟨_, ⟨trees, inside, rfl⟩, rfl⟩

/-- A record literal is read as the rule for record literals says. -/
theorem record_iff (follows : FollowsGrammar read bound) (opened : Position) (rounds : Nat)
    {input : List Char} (position : Position) (heap : Heap) (value : Atom)
    (short : input.length < bound) (enough : input.length < rounds) :
    Reads (entries read opened rounds .emptyLiteral >>= fun record =>
        alloc record >>= fun id => pure (.record id)) input position heap value rest heap' ↔
      ∃ tree, Grammar.Body .plain ('[' :: input) tree rest ∧ tree.build heap = (value, heap') := by
  simp only [Grammar.body_record_iff, true_and]
  rw [reads_bind_iff]
  constructor
  · rintro ⟨record, middle, positionMiddle, heapMiddle, begins, goesOn⟩
    obtain ⟨trees, fields, inside, built, rfl⟩ :=
      (entries_iff follows opened rounds position heap _ _ short enough).mp ⟨positionMiddle, begins⟩
    obtain ⟨id, allocates, rfl⟩ := reads_bind_pure_iff.mp goesOn
    obtain ⟨rfl, rfl, rfl⟩ := reads_alloc_iff.mp allocates
    refine ⟨_, ⟨trees, rfl, inside⟩, ?_⟩
    simp [Tree.build, built]
  · rintro ⟨_, ⟨trees, rfl, inside⟩, built⟩
    cases built
    obtain ⟨positionMiddle, begins⟩ := (entries_iff follows opened rounds position heap _ _ short
      enough).mpr ⟨trees, _, inside, rfl, rfl⟩
    refine ⟨_, _, positionMiddle, _, begins, reads_bind_pure_iff.mpr ⟨_, ?_, rfl⟩⟩
    exact reads_alloc_iff.mpr ⟨rfl, rfl, rfl⟩

/-- What stands behind a modifier is read as the rules for leaves, lists and records say. -/
theorem body_iff (follows : FollowsGrammar read bound) (modifier : Modifier) (rounds : Nat)
    {input : List Char} (position : Position) (heap : Heap) (value : Atom)
    (short : input.length ≤ bound) (enough : input.length ≤ rounds) :
    Reads (body read rounds modifier) input position heap value rest heap' ↔
      ∃ tree, Grammar.Body modifier input tree rest ∧ tree.build heap = (value, heap') := by
  -- No rule applies at the end of the text, at `)` and at `]`, which are the failing cases.
  have noRule (closes : ∀ ch ∈ input.head?, ch = ')' ∨ ch = ']') {cause : SyntaxFault} :
      Reads (fail cause) input position heap value rest heap' ↔
        ∃ tree, Grammar.Body modifier input tree rest ∧ tree.build heap = (value, heap') := by
    refine iff_of_false not_reads_fail ?_
    rintro ⟨tree, inside, _⟩
    obtain ⟨ch, more, rfl, noParenthesis, noBracket, _⟩ := inside.visible
    exact (closes ch rfl).elim noParenthesis noBracket
  rw [body, reads_cursor_bind_iff, Cursor.peek?]
  split
  · rename_i atEnd
    exact noRule (by simp [atEnd])
  · rename_i opening
    obtain ⟨more, rfl⟩ := List.head?_eq_some_iff.mp opening
    rw [reads_advance_bind_iff]
    exact list_iff follows modifier position rounds _ heap value short enough
  · rename_i opening
    obtain ⟨more, rfl⟩ := List.head?_eq_some_iff.mp opening
    split
    · rename_i marked
      refine iff_of_false not_reads_fail ?_
      rintro ⟨tree, inside, _⟩
      exact marked (Grammar.body_record_iff.mp inside).1
    · rename_i unmarked
      obtain rfl := not_not.mp unmarked
      rw [reads_advance_bind_iff]
      exact record_iff follows position rounds _ heap value short enough
  · rename_i closing
    exact noRule (by simp [closing])
  · rename_i closing
    exact noRule (by simp [closing])
  · rename_i noList noRecord _ noClosing starts
    have starts : input.head? = some _ := starts
    have noList : input.head? ≠ some '(' := by simpa [starts] using noList
    have noRecord : input.head? ≠ some '[' := by simpa [starts] using noRecord
    have noClosing : input.head? ≠ some ']' := by simpa [starts] using noClosing
    rw [leaf_iff modifier position heap value noRecord noClosing]
    simp only [Grammar.body_leaf_iff noList noRecord]
    constructor
    · rintro ⟨result, lexeme, allowed, rfl, rfl⟩
      exact ⟨_, ⟨result, rfl, lexeme, allowed⟩, rfl⟩
    · rintro ⟨_, ⟨result, rfl, lexeme, allowed⟩, built⟩
      cases built
      exact ⟨result, lexeme, allowed, rfl, rfl⟩

/-- A modifier is taken off where its character comes next. -/
theorem modifier_bind_eq (input : List Char) (position : Position) :
    ∃ mark inner position', Grammar.Marked input mark inner ∧
      ∀ (heap heap' : Heap) (next : Modifier → ReadM α) (value : α) (rest : List Char),
        Reads (modifier >>= next) input position heap value rest heap' ↔
          Reads (next mark) inner position' heap value rest heap' := by
  cases found : input.head?.bind Modifier.ofChar? with
  | none =>
      refine ⟨.plain, input, position, .unmarked ?_, fun heap heap' next value rest => ?_⟩
      · intro ch mem
        rw [Option.mem_def.mp mem] at found
        exact found
      · rw [modifier, bind_assoc, reads_cursor_bind_iff, Cursor.peek?, found]
        rfl
  | some mark =>
      cases input with
      | nil => cases found
      | cons ch inner =>
          refine ⟨mark, inner, position.next ch, .marked found,
            fun heap heap' next value rest => ?_⟩
          rw [modifier, bind_assoc, reads_cursor_bind_iff, Cursor.peek?, found]
          rfl

/-- The fields behind an atom are read as the rule for chains says. -/
theorem access_iff (follows : FollowsGrammar read bound) {input : List Char} (position : Position)
    (heap : Heap) (target value : Atom) (short : input.length ≤ bound) :
    Reads (access read target) input position heap value rest heap' ↔
      ∃ trees fields, Grammar.Chain input trees rest ∧
        Tree.buildItems trees heap = (fields, heap') ∧ value = target.chain fields := by
  obtain ⟨seen, position', skips, skip_iff⟩ := @skipTrivia_bind_eq Atom input position
  have shorter := skips.length_le
  rw [access, skip_iff, reads_cursor_bind_iff, Cursor.peek?]
  by_cases point : seen.head? = some '.'
  · obtain ⟨inner, rfl⟩ := List.head?_eq_some_iff.mp point
    rw [List.length_cons] at shorter
    rw [if_pos point, reads_advance_bind_iff, reads_cursor_bind_iff]
    simp only [Grammar.chain_field_iff skips]
    constructor
    · intro reads
      obtain ⟨tree, middle, positionMiddle, atom, goesOn⟩ :=
        exists_atom_of_reads_bind follows (by omega) reads
      obtain ⟨segment, chain⟩ := atom
      obtain ⟨joined, sameHeap⟩ := Grammar.join_segments segment chain target heap
      rw [Grammar.modifier_build_segments segment, joined, sameHeap] at goesOn
      split at goesOn
      · exact absurd goesOn not_reads_throw
      · rename_i noExpand
        obtain ⟨rfl, rfl, rfl⟩ := reads_pure_iff.mp goesOn
        exact ⟨_, _, ⟨_, _, _, _, rfl, segment, noExpand, chain⟩, rfl, rfl⟩
    · rintro ⟨_, fields, ⟨mark, field, others, middle, rfl, segment, noExpand, chain⟩, built, rfl⟩
      refine reads_bind_of_atom follows (by omega) (.segments segment chain) fun _ => ?_
      obtain ⟨joined, sameHeap⟩ := Grammar.join_segments segment chain target heap
      rw [Grammar.modifier_build_segments segment, if_neg noExpand, joined, sameHeap, built]
      exact reads_pure_iff.mpr ⟨rfl, rfl, rfl⟩
  · rw [if_neg point, reads_pure_iff]
    simp only [Grammar.chain_stop_iff skips point]
    constructor
    · rintro ⟨rfl, rfl, rfl⟩
      exact ⟨[], [], ⟨rfl, rfl⟩, rfl, rfl⟩
    · rintro ⟨_, fields, ⟨rfl, rfl⟩, built, rfl⟩
      cases built
      exact ⟨rfl, rfl, rfl⟩

/-- An atom is read as the rule for atoms says, when the atoms inside and behind it are. -/
theorem step_iff (follows : FollowsGrammar read bound) {input : List Char} (position : Position)
    (heap : Heap) (value : Atom) (short : input.length ≤ bound) :
    Reads (step read bound) input position heap value rest heap' ↔
      ∃ tree, Grammar.Atom input tree rest ∧ tree.build heap = (value, heap') := by
  obtain ⟨seen, position', skips, skip_iff⟩ := @skipTrivia_bind_eq Atom input position
  obtain ⟨mark, inner, positionInner, marked, unmark⟩ := @modifier_bind_eq Atom seen position'
  have innerShort : inner.length ≤ bound :=
    marked.length_le.trans (skips.length_le.trans short)
  rw [step, skip_iff, unmark, reads_bind_iff]
  simp only [Grammar.atom_iff skips marked]
  constructor
  · rintro ⟨target, middle, positionMiddle, heapMiddle, begins, goesOn⟩
    obtain ⟨first, body, built⟩ :=
      (body_iff follows _ _ _ _ _ innerShort innerShort).mp ⟨positionMiddle, begins⟩
    obtain ⟨atom, accesses, rfl⟩ := reads_bind_pure_iff.mp goesOn
    have consumed := body.length_lt
    obtain ⟨trees, fields, chain, builtFields, rfl⟩ :=
      (access_iff follows _ _ _ _ (by omega)).mp accesses
    refine ⟨_, ⟨first, trees, middle, rfl, body, chain⟩, ?_⟩
    rw [Grammar.build_segments trees heap body.shape.2.2, built, builtFields]
  · rintro ⟨_, ⟨first, fields, middle, rfl, body, chain⟩, built⟩
    rw [Grammar.build_segments fields heap body.shape.2.2] at built
    cases built
    have consumed := body.length_lt
    obtain ⟨positionMiddle, begins⟩ :=
      (body_iff follows mark bound positionInner heap _ innerShort innerShort).mpr
        ⟨first, body, rfl⟩
    refine ⟨_, _, positionMiddle, _, begins, reads_bind_pure_iff.mpr ⟨_, ?_, rfl⟩⟩
    exact (access_iff follows _ _ _ _ (by omega)).mpr ⟨fields, _, chain, rfl, rfl⟩

end Parts

/-- The reader of atoms follows the grammar on every text shorter than its fuel. -/
theorem followsGrammar_atom (fuel : Nat) : FollowsGrammar (atom fuel) fuel := by
  induction fuel with
  | zero => exact fun input _ _ _ _ _ short => absurd short (Nat.not_lt_zero _)
  | succ fuel ih =>
      intro input position heap heap' value rest short
      exact step_iff ih position heap value (Nat.le_of_lt_succ short)

/-- A whole text is read as the rule for programs says. -/
theorem program_iff {fuel : Nat} {input rest : List Char} {heap' : Heap} (position : Position)
    (heap : Heap) (value : Atom) (short : input.length < fuel) :
    Reads (program fuel) input position heap value rest heap' ↔
      rest = [] ∧ ∃ tree, Grammar.Program input tree ∧ tree.build heap = (value, heap') := by
  obtain ⟨seen, position', skips, skip_iff⟩ := @skipTrivia_bind_eq Atom input position
  have seenShort : seen.length < fuel := skips.length_le.trans_lt short
  rw [program, skip_iff, reads_cursor_bind_iff]
  cases seen with
  | nil =>
      refine iff_of_false not_reads_fail ?_
      rintro ⟨_, tree, atom, _⟩
      obtain ⟨_, _, same, _⟩ := Grammar.Atom.visible atom skips
      cases same
  | cons ch more =>
      simp only [Grammar.Program, Grammar.atom_iff_of_skips skips]
      change Reads (atom fuel >>= fun atom => skipTrivia >>= fun _ => cursor >>= fun last =>
        if last.atEnd = true then pure atom else fail .leftover) _ _ _ _ _ _ ↔ _
      constructor
      · intro reads
        obtain ⟨tree, middle, positionMiddle, isAtom, goesOn⟩ :=
          exists_atom_of_reads_bind (followsGrammar_atom fuel) seenShort reads
        rw [reads_skipTrivia_bind_iff, reads_cursor_bind_iff] at goesOn
        have stops := (Grammar.skips_iff positionMiddle).mp isAtom.skips_self
        split at goesOn
        · rename_i atEnd
          obtain ⟨rfl, rfl, rfl⟩ := reads_pure_iff.mp goesOn
          have ends : middle = [] := by simpa [Cursor.atEnd, stops] using atEnd
          subst ends
          exact ⟨stops, tree, isAtom, rfl⟩
        · exact absurd goesOn not_reads_fail
      · rintro ⟨rfl, tree, isAtom, built⟩
        refine reads_bind_of_atom (followsGrammar_atom fuel)
          seenShort isAtom fun positionMiddle => ?_
        rw [built]
        exact reads_pure_iff.mpr ⟨rfl, rfl, rfl⟩

end ReadM

/-! ## Reading accepts exactly the grammar -/

namespace Source

variable {source : Source} {heap heap' : Heap} {atom : Atom}

/-- Reading a source succeeds with the atom of a tree that the grammar assigns to its text. -/
theorem read_eq_ok_iff :
    source.read heap = (.ok atom, heap') ↔
      ∃ tree, Grammar.Program source.content.toList tree ∧ tree.build heap = (atom, heap') := by
  have unfolded : source.read heap =
      ((outcome (ReadM.program (source.content.toList.length + 1))
          ⟨⟨source.content.toList, .start⟩, heap⟩).1.mapError (Fault.toError · source),
        (outcome (ReadM.program (source.content.toList.length + 1))
          ⟨⟨source.content.toList, .start⟩, heap⟩).2.heap) := rfl
  have reads : source.read heap = (.ok atom, heap') ↔
      ∃ rest, ReadM.Reads (ReadM.program (source.content.toList.length + 1))
        source.content.toList .start heap atom rest heap' := by
    rw [unfolded]
    unfold ReadM.Reads Gives
    rcases outcome _ _ with ⟨_ | value, ⟨⟨rest, position⟩, after⟩⟩
    · simp [Except.mapError]
    · simp [Except.mapError]
  rw [reads]
  constructor
  · rintro ⟨rest, reads⟩
    exact ((ReadM.program_iff _ _ _ (Nat.lt_succ_self _)).mp reads).2
  · intro isProgram
    exact ⟨[], (ReadM.program_iff _ _ _ (Nat.lt_succ_self _)).mpr ⟨rfl, isProgram⟩⟩

theorem read_of_program {tree : Tree} (isProgram : Grammar.Program source.content.toList tree) :
    source.read heap = (.ok (tree.build heap).1, (tree.build heap).2) :=
  read_eq_ok_iff.mpr ⟨tree, isProgram, rfl⟩

/-- Reading accepts exactly the programs of the grammar, and gives the atom of the tree that the
grammar assigns to the text and the heap with the record literals of this tree. There is only one
such tree. -/
theorem read_accepts_programs (source : Source) (heap : Heap) :
    (∀ atom heap', source.read heap = (.ok atom, heap') ↔
        ∃ tree, Grammar.Program source.content.toList tree ∧ tree.build heap = (atom, heap')) ∧
      Set.Subsingleton {tree | Grammar.Program source.content.toList tree} := by
  refine ⟨fun atom heap' => read_eq_ok_iff, ?_⟩
  intro tree isProgram other isProgram'
  exact (Grammar.Atom.unique isProgram isProgram').1

end Source

end RecordLisp
