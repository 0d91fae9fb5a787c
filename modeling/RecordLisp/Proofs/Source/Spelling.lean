import RecordLisp.Proofs.Decimal.ReadBack
import RecordLisp.Proofs.Source.Reading

/-!
# The spelling of trees

`Tree.spelling` writes a tree as source text, and `Tree.isReadable` tells for which trees this text
is read as the tree. The main result is that the spelling of a readable tree is an atom of the
grammar, read as this very tree, in front of any text that ends a literal. `Tree.isPrintable` is a
simpler condition that is enough: it has no numbers as fields.

A chain of field accesses leans left, but the grammar finds its fields from left to right. So the
statement for a tree speaks of the fields that follow it: a member expression hands its last field
on to the fields behind its target.
-/

namespace RecordLisp

/-- The characters that are written for a modifier. -/
def Modifier.characters (modifier : Modifier) : List Char := modifier.char?.toList

theorem Modifier.toList_text (modifier : Modifier) :
    modifier.text.toList = modifier.characters := by
  cases modifier <;> rfl

namespace Leaf

/-- The characters that are written for a leaf. Heap objects have no spelling as leaves. -/
def spelling : Leaf → List Char
  | .nil => ['n', 'i', 'l']
  | .integer value => value.text.toList
  | .decimal value => value.text.toList
  | .string text => (Text.quoted text).toList
  | .token name => name.toList
  | .record _ | .function _ => []

/-- Whether a leaf behind a modifier is read back from its spelling. -/
def isPrintable (modifier : Modifier) : Leaf → Bool
  | .nil => true
  | .integer _ => modifier == .plain
  | .decimal value => modifier == .plain && value.isFinite
  | .string text => modifier == .plain && !Text.holdsQuote text
  | .token name => lexesAsToken name
  | .record _ | .function _ => false

end Leaf

namespace Tree

mutual

/-- The source text of a tree. Lists have blanks between their items, and record literals nothing
between their entries. -/
def spelling : Tree → List Char
  | .leaf modifier value => modifier.characters ++ value.spelling
  | .list modifier items => modifier.characters ++ '(' :: itemsSpelling items ++ [')']
  | .member modifier target field =>
      modifier.characters ++ target.spelling ++ '.' :: field.spelling
  | .record fields => '[' :: fieldsSpelling fields ++ [']']

/-- The source text of the items of a list. -/
def itemsSpelling : List Tree → List Char
  | [] => []
  | item :: items =>
      if items.isEmpty then item.spelling else item.spelling ++ ' ' :: itemsSpelling items

/-- The source text of the entries of a record literal. -/
def fieldsSpelling : List (String × Tree) → List Char
  | [] => []
  | (name, value) :: fields =>
      '(' :: name.toList ++ ' ' :: value.spelling ++ ')' :: fieldsSpelling fields

end

/-- Whether a tree is a number. -/
def isNumber : Tree → Bool
  | .leaf _ (.integer _) | .leaf _ (.decimal _) => true
  | _ => false

/-- The first segment of a chain. -/
def leftmost : Tree → Tree
  | .member _ target _ => target.leftmost
  | tree => tree

/-- Whether source text can put a modifier in front of a segment. -/
def takesModifier : Tree → Bool
  | .leaf _ .nil | .leaf _ (.token _) | .list _ _ => true
  | _ => false

mutual

/-- Whether the spelling of a tree is read back as the tree. In a chain only the first segment can
be a number, and no field behind it can be marked to be expanded; the modifier of a chain is read as
that of its first segment. -/
def isPrintable : Tree → Bool
  | .leaf modifier value => value.isPrintable modifier
  | .list _ items => arePrintable items
  | .member modifier target field =>
      target.isPrintable && target.modifier == .plain &&
      field.isPrintable && !field.isMember && !field.isNumber && field.modifier != .expand &&
      (modifier == .plain || target.leftmost.takesModifier)
  | .record fields => fieldsPrintable fields

/-- Whether some trees are read back. -/
def arePrintable : List Tree → Bool
  | [] => true
  | item :: items => item.isPrintable && arePrintable items

/-- Whether the entries of a record literal are read back. -/
def fieldsPrintable : List (String × Tree) → Bool
  | [] => true
  | (name, value) :: fields =>
      lexesAsToken name && value.isPrintable && fieldsPrintable fields

end

/-- Whether the last segment of a chain is an integer, which would take a fraction behind it. -/
def endsInInteger : Tree → Bool
  | .leaf _ (.integer _) => true
  | .member _ _ field => field.endsInInteger
  | _ => false

/-- Whether the spelling of an unmarked segment starts with a digit: a number without a sign. -/
def startsWithDigit : Tree → Bool
  | .leaf _ (.integer value) => 0 ≤ value.val
  | .leaf _ (.decimal (.finite negative _)) => !negative
  | _ => false

mutual

/-- Whether the spelling of a tree is read back as the tree. A field that starts with a digit cannot
follow an integer, which would take it for its fraction, and no field can be marked to be expanded;
the modifier of a chain is read as that of its first segment. -/
def isReadable : Tree → Bool
  | .leaf modifier value => value.isPrintable modifier
  | .list _ items => areReadable items
  | .member modifier target field =>
      target.isReadable && target.modifier == .plain &&
      field.isReadable && !field.isMember && !(target.endsInInteger && field.startsWithDigit) &&
      field.modifier != .expand && (modifier == .plain || target.leftmost.takesModifier)
  | .record fields => fieldsReadable fields

/-- Whether some trees are read back. -/
def areReadable : List Tree → Bool
  | [] => true
  | item :: items => item.isReadable && areReadable items

/-- Whether the entries of a record literal are read back. -/
def fieldsReadable : List (String × Tree) → Bool
  | [] => true
  | (name, value) :: fields => lexesAsToken name && value.isReadable && fieldsReadable fields

end

theorem isNumber_of_startsWithDigit {tree : Tree} (digit : tree.startsWithDigit = true) :
    tree.isNumber = true := by
  unfold startsWithDigit at digit
  split at digit
  · rfl
  · rfl
  · cases digit

mutual

theorem isReadable_of_isPrintable : ∀ tree : Tree, tree.isPrintable = true → tree.isReadable = true
  | .leaf _ _, printable => printable
  | .list _ items, printable => areReadable_of_arePrintable items printable
  | .record fields, printable => fieldsReadable_of_fieldsPrintable fields printable
  | .member modifier target field, printable => by
      simp only [isPrintable, Bool.and_eq_true, Bool.not_eq_true'] at printable
      obtain ⟨⟨⟨⟨⟨⟨isTarget, unmarked⟩, isField⟩, single⟩, noNumber⟩, noExpand⟩, allowed⟩ :=
        printable
      have noDigit : field.startsWithDigit = false := by
        by_contra digit
        rw [isNumber_of_startsWithDigit (Bool.eq_true_of_not_eq_false digit)] at noNumber
        cases noNumber
      simp only [isReadable, isReadable_of_isPrintable target isTarget,
        isReadable_of_isPrintable field isField, unmarked, single, noDigit, noExpand, allowed]
      simp

theorem areReadable_of_arePrintable :
    ∀ items : List Tree, arePrintable items = true → areReadable items = true
  | [], _ => rfl
  | item :: items, printable => by
      have parts := Bool.and_eq_true_iff.mp printable
      rw [areReadable, isReadable_of_isPrintable item parts.1,
        areReadable_of_arePrintable items parts.2]
      rfl

theorem fieldsReadable_of_fieldsPrintable :
    ∀ fields : List (String × Tree), fieldsPrintable fields = true → fieldsReadable fields = true
  | [], _ => rfl
  | (name, value) :: fields, printable => by
      have parts := Bool.and_eq_true_iff.mp printable
      have first := Bool.and_eq_true_iff.mp parts.1
      rw [fieldsReadable, first.1, isReadable_of_isPrintable value first.2,
        fieldsReadable_of_fieldsPrintable fields parts.2]
      rfl

end

end Tree

namespace Grammar

/-- What ends every leaf: nothing, a separator, a closing parenthesis, or a point that starts no
fraction. -/
def Stops (rest : List Char) : Prop := EndsLiteral rest ∧ ¬ StartsFraction rest

/-- What ends a tree: what ends a literal, and nothing that a last integer would take for its
fraction. -/
def Ends (tree : Tree) (rest : List Char) : Prop :=
  EndsLiteral rest ∧ (tree.endsInInteger = true → ¬ StartsFraction rest)

theorem Stops.ends {rest : List Char} (stops : Stops rest) (tree : Tree) : Ends tree rest :=
  ⟨stops.1, fun _ => stops.2⟩

/-- Whether a character can be the first of an unmarked atom and is not taken for anything else. -/
def startsBody (ch : Char) : Bool :=
  !isSeparator ch && ch != ';' && ch != '.' && (Modifier.ofChar? ch).isNone

theorem endsToken_of_endsLiteral {ch : Char} (ends : endsLiteral ch = true) :
    endsToken ch = true := by
  simp only [endsLiteral, endsToken, Bool.or_eq_true] at ends ⊢
  tauto

theorem EndsLiteral.endsToken {rest : List Char} (ends : EndsLiteral rest) : EndsToken rest :=
  fun ch mem => endsToken_of_endsLiteral (ends ch mem)

theorem stops_nil : Stops [] := by
  refine ⟨by simp [EndsLiteral], ?_⟩
  rintro ⟨_, _, same, _⟩
  cases same

theorem stops_cons {ch : Char} (rest : List Char) (ends : endsLiteral ch = true)
    (point : ch ≠ '.') :
    Stops (ch :: rest) := by
  refine ⟨by simpa [EndsLiteral] using ends, ?_⟩
  rintro ⟨_, _, same, _⟩
  cases same
  exact point rfl

theorem stops_point {ch : Char} (rest : List Char) (noDigit : Text.isDigit ch = false) :
    Stops ('.' :: ch :: rest) := by
  refine ⟨by simp [EndsLiteral, endsLiteral], ?_⟩
  rintro ⟨_, _, same, digit⟩
  cases same
  rw [noDigit] at digit
  cases digit

theorem skips_cons {ch : Char} (rest : List Char) (solid : isSeparator ch = false)
    (noComment : ch ≠ ';') : Skips (ch :: rest) (ch :: rest) :=
  .stop (by simpa using ⟨solid, noComment⟩)

theorem skips_of_startsBody {ch : Char} (rest : List Char) (starts : startsBody ch = true) :
    Skips (ch :: rest) (ch :: rest) := by
  simp only [startsBody, Bool.and_eq_true, Bool.not_eq_true', bne_iff_ne] at starts
  exact skips_cons rest starts.1.1.1 starts.1.1.2

/-! ## Leaves -/

theorem not_isDigit_of_endsToken {ch : Char} (ends : endsToken ch = true) :
    Text.isDigit ch = false := by
  simp only [endsToken, isSeparator, Bool.or_eq_true, beq_iff_eq] at ends
  rcases ends with (((((rfl | rfl) | rfl) | rfl) | rfl) | rfl) | rfl <;> rfl

/-- Nothing that follows a token makes a number of it. -/
theorem startsNumber_append {text rest : List Char} (nonempty : text ≠ [])
    (noNumber : startsNumber text = false) (ends : EndsToken rest) :
    startsNumber (text ++ rest) = false := by
  match text with
  | [] => exact absurd rfl nonempty
  | [ch] =>
      by_cases minus : ch = '-'
      · subst minus
        cases rest with
        | nil => rfl
        | cons next rest => exact not_isDigit_of_endsToken (ends next rfl)
      · unfold startsNumber at noNumber ⊢
        split at noNumber
        · simp_all
        · simp_all
        · simp_all
  | ch :: next :: text =>
      by_cases minus : ch = '-'
      · subst minus
        exact noNumber
      · unfold startsNumber at noNumber ⊢
        simp_all

/-- A first character is refused when it is a modifier, opens something else or hides what
follows. -/
theorem marksNoToken_eq_false_iff {ch : Char} :
    marksNoToken ch = false ↔
      Modifier.ofChar? ch = none ∧ ch ≠ '\x22' ∧ ch ≠ '[' ∧ ch ≠ ']' ∧ ch ≠ ';' := by
  have unmarked : Modifier.ofChar? ch = none ↔ ch ≠ '\x27' ∧ ch ≠ '$' ∧ ch ≠ ':' := by
    unfold Modifier.ofChar?
    split <;> simp_all
  rw [unmarked]
  simp [marksNoToken, and_assoc]

/-- What `lexesAsToken` asks of a name. -/
theorem lexesAsToken_iff {name : String} :
    lexesAsToken name = true ↔
      ∃ first rest, name.toList = first :: rest ∧ startsNumber (first :: rest) = false ∧
        name ≠ "nil" ∧ marksNoToken first = false ∧
        ∀ ch ∈ first :: rest, breaksToken ch = false := by
  unfold lexesAsToken
  split
  · rename_i empty
    simp [empty]
  · rename_i first rest spelled
    simp only [spelled, Bool.and_eq_true, Bool.not_eq_true', bne_iff_ne, List.any_eq_false,
      List.cons.injEq, Bool.not_eq_true]
    constructor
    · rintro ⟨⟨⟨noNumber, notNil⟩, plain⟩, solid⟩
      exact ⟨first, rest, ⟨rfl, rfl⟩, noNumber, notNil, plain, solid⟩
    · rintro ⟨_, _, ⟨rfl, rfl⟩, noNumber, notNil, plain, solid⟩
      exact ⟨⟨⟨noNumber, notNil⟩, plain⟩, solid⟩

theorem not_endsToken_of_not_breaksToken {ch : Char} (solid : breaksToken ch = false) :
    endsToken ch = false := by
  by_contra ends
  simp only [endsToken, isSeparator, Bool.or_eq_true, beq_iff_eq, Bool.not_eq_false] at ends
  rcases ends with (((((rfl | rfl) | rfl) | rfl) | rfl) | rfl) | rfl <;> cases solid

theorem token_spelling {name : String} {rest : List Char} (lexes : lexesAsToken name = true)
    (ends : EndsToken rest) : Lexeme (name.toList ++ rest) (.token name) rest := by
  obtain ⟨first, more, spelled, noNumber, notNil, plain, solid⟩ := lexesAsToken_iff.mp lexes
  have whole : String.ofList (first :: more) = name := by rw [← spelled, String.ofList_toList]
  have leaf : tokenLeaf (first :: more) = .token name := by
    rw [tokenLeaf, whole, if_neg notNil]
  rw [spelled, ← leaf]
  obtain ⟨-, noQuote, noOpening, noClosing, -⟩ := marksNoToken_eq_false_iff.mp plain
  exact .token (startsNumber_append (by simp) noNumber ends) noQuote noOpening noClosing
    (fun ch mem => not_endsToken_of_not_breaksToken (solid ch mem)) ends

theorem characters_spelling {text rest : List Char} (noQuote : '\x22' ∉ text) :
    Characters (text.flatMap Text.escapeLiteral ++ '\x22' :: rest) text rest := by
  induction text with
  | nil => exact .close
  | cons ch text ih =>
      have inside := ih (fun mem => noQuote (List.mem_cons_of_mem ch mem))
      rw [List.flatMap_cons, List.append_assoc]
      unfold Text.escapeLiteral
      split
      · exact .backslash inside
      · exact .lineFeed inside
      · rename_i noBackslash _
        exact .plain (fun same => noQuote (same ▸ List.mem_cons_self)) noBackslash inside

/-- The spelling of a leaf is read as this leaf. -/
theorem leaf_spelling {modifier : Modifier} {value : Leaf} {rest : List Char}
    (printable : value.isPrintable modifier = true) (stops : Ends (.leaf modifier value) rest) :
    Lexeme (value.spelling ++ rest) value rest := by
  obtain ⟨ends, noFraction⟩ := stops
  cases value with
  | nil =>
      exact @Lexeme.token 'n' ['i', 'l'] rest rfl (by decide) (by decide) (by decide)
        (by simp [endsToken, isSeparator]) ends.endsToken
  | integer value =>
      obtain ⟨negative, digits, isDigits, spelled, denotes⟩ := value.toList_text
      rw [Leaf.spelling, spelled]
      exact .integer isDigits ends (noFraction rfl) denotes
  | decimal value =>
      cases value with
      | nan => simp [Leaf.isPrintable, Decimal.isFinite] at printable
      | infinite => simp [Leaf.isPrintable, Decimal.isFinite] at printable
      | finite negative magnitude =>
          obtain ⟨whole, fraction, isWhole, isFraction, spelled, denotes⟩ :=
            Decimal.toList_text_finite negative magnitude
          rw [Leaf.spelling, spelled, ← denotes]
          exact .decimal isWhole isFraction ends
  | string text =>
      have noQuote : '\x22' ∉ text.toList := by
        simpa [Leaf.isPrintable, Text.holdsQuote] using (Bool.and_eq_true_iff.mp printable).2
      have lexeme := Lexeme.string (characters_spelling noQuote) ends
      simpa [Leaf.spelling, Text.quoted] using lexeme
  | token name => exact token_spelling printable ends.endsToken
  | record | function => cases printable

theorem startsBody_of_isDigit {ch : Char} (digit : Text.isDigit ch = true) :
    startsBody ch = true := by
  by_contra refused
  simp only [startsBody, isSeparator, Bool.not_eq_true, Bool.and_eq_false_iff,
    Bool.not_eq_false', Bool.or_eq_true, beq_iff_eq, bne_eq_false_iff_eq,
    Option.isNone_eq_false_iff, Option.isSome_iff_exists, Modifier.ofChar?_eq_some_iff] at refused
  rcases refused with (((((rfl | rfl) | rfl) | rfl) | rfl) | rfl) | ⟨modifier, written⟩
  all_goals try cases digit
  cases modifier <;> cases written <;> cases digit

theorem head_number {negative : Bool} {digits : List Char} (isDigits : Digits digits)
    (rest : List Char) :
    ∃ ch more, sign negative ++ digits ++ rest = ch :: more ∧ startsBody ch = true ∧
      (Text.isDigit ch = true → negative = false) := by
  cases negative with
  | true => exact ⟨'-', digits ++ rest, rfl, rfl, fun digit => absurd digit (by decide)⟩
  | false =>
      obtain ⟨nonempty, all⟩ := isDigits
      cases digits with
      | nil => exact absurd rfl nonempty
      | cons ch digits =>
          exact ⟨ch, digits ++ rest, rfl, startsBody_of_isDigit (all ch List.mem_cons_self),
            fun _ => rfl⟩

/-- How the spelling of a leaf starts. Only numbers without a sign start with a digit. -/
theorem head_leaf {modifier : Modifier} {value : Leaf}
    (printable : value.isPrintable modifier = true) :
    ∃ ch more, value.spelling = ch :: more ∧ startsBody ch = true ∧
      (Text.isDigit ch = true → (Tree.leaf modifier value).startsWithDigit = true) := by
  cases value with
  | nil => exact ⟨'n', ['i', 'l'], rfl, rfl, fun digit => absurd digit (by decide)⟩
  | integer value =>
      obtain ⟨negative, digits, isDigits, spelled, denotes⟩ := value.toList_text
      obtain ⟨ch, more, same, starts, unsigned⟩ := head_number isDigits []
      rw [List.append_nil] at same
      refine ⟨ch, more, spelled.trans same, starts, fun digit => ?_⟩
      rw [unsigned digit] at denotes
      exact decide_eq_true (denotes ▸ Int.natCast_nonneg _)
  | decimal value =>
      cases value with
      | nan => simp [Leaf.isPrintable, Decimal.isFinite] at printable
      | infinite => simp [Leaf.isPrintable, Decimal.isFinite] at printable
      | finite negative magnitude =>
          obtain ⟨whole, fraction, isWhole, _, spelled, _⟩ :=
            Decimal.toList_text_finite negative magnitude
          obtain ⟨ch, more, same, starts, unsigned⟩ := head_number isWhole ('.' :: fraction)
          refine ⟨ch, more, spelled.trans same, starts, fun digit => ?_⟩
          rw [Tree.startsWithDigit, unsigned digit]
          rfl
  | string text =>
      refine ⟨'\x22', text.toList.flatMap Text.escapeLiteral ++ ['\x22'], ?_, rfl,
        fun digit => absurd digit (by decide)⟩
      simp [Leaf.spelling, Text.quoted]
  | token name =>
      obtain ⟨first, more, spelled, noNumber, _, plain, solid⟩ := lexesAsToken_iff.mp printable
      have noEnd := not_endsToken_of_not_breaksToken (solid first List.mem_cons_self)
      obtain ⟨unmarked, -, -, -, noComment⟩ := marksNoToken_eq_false_iff.mp plain
      simp only [endsToken, Bool.or_eq_false_iff, beq_eq_false_iff_ne] at noEnd
      refine ⟨first, more, spelled, ?_, fun digit => ?_⟩
      · simp [startsBody, noEnd, noComment, unmarked]
      · unfold startsNumber at noNumber
        split at noNumber
        · rename_i same
          cases same
          cases digit
        · simp_all
        · contradiction
  | record | function => cases printable

/-! ## Trees -/

theorem spelling_eq (tree : Tree) :
    tree.spelling = tree.modifier.characters ++ (tree.withModifier .plain).spelling := by
  cases tree with
  | leaf | list | member =>
      simp [Tree.spelling, Tree.modifier, Tree.withModifier, Modifier.characters,
        Modifier.char?]
  | record => rfl

/-- How the spelling of an unmarked tree starts. -/
theorem head_spelling : ∀ tree : Tree, tree.isReadable = true →
    ∃ ch more, (tree.withModifier .plain).spelling = ch :: more ∧ startsBody ch = true ∧
      (Text.isDigit ch = true → tree.startsWithDigit = true ∨ tree.isMember = true)
  | .leaf modifier value, readable => by
      obtain ⟨ch, more, spelled, starts, number⟩ := head_leaf readable
      exact ⟨ch, more, spelled, starts, fun digit => .inl (number digit)⟩
  | .list modifier items, _ => ⟨'(', _, rfl, rfl, fun digit => absurd digit (by decide)⟩
  | .record fields, _ => ⟨'[', _, rfl, rfl, fun digit => absurd digit (by decide)⟩
  | .member modifier target field, readable => by
      simp only [Tree.isReadable, Bool.and_eq_true, beq_iff_eq] at readable
      obtain ⟨⟨⟨⟨⟨⟨target', unmarked⟩, _⟩, _⟩, _⟩, _⟩, _⟩ := readable
      obtain ⟨ch, more, spelled, starts, _⟩ := head_spelling target target'
      refine ⟨ch, more ++ '.' :: field.spelling, ?_, starts, fun _ => .inr rfl⟩
      rw [Tree.withModifier, Tree.spelling, spelling_eq target, unmarked, spelled]
      rfl

/-- What source text has to say of a tree: behind any modifier that its first segment takes, and in
front of fields that follow, its spelling is an atom with this modifier and these fields. A tree
other than a member expression is a single segment. -/
structure Spelled (tree : Tree) : Prop where
  segment : tree.isMember = false → ∀ (mark : Modifier) (behind : List Char),
    (mark = .plain ∨ tree.takesModifier = true) → Ends tree behind →
    Segment (mark.characters ++ (tree.withModifier .plain).spelling ++ behind) mark
      (tree.withModifier .plain) behind
  atom : ∀ (mark : Modifier) (behind : List Char) (fields : List Tree) (rest : List Char),
    (mark = .plain ∨ tree.leftmost.takesModifier = true) → Ends tree behind →
    Chain behind fields rest →
    Atom (mark.characters ++ (tree.withModifier .plain).spelling ++ behind)
      (((tree.withModifier .plain).chain fields).withModifier mark) rest

/-- Behind a modifier stands the body of a segment. -/
theorem segment_of_body {mark : Modifier} {ch : Char} {more rest : List Char} {tree : Tree}
    (starts : startsBody ch = true) (body : Body mark (ch :: more) tree rest) :
    Segment (mark.characters ++ ch :: more) mark tree rest := by
  have unmarked : Modifier.ofChar? ch = none := by
    simp only [startsBody, Bool.and_eq_true, Option.isNone_iff_eq_none] at starts
    exact starts.2
  cases mark with
  | plain =>
      exact .body (skips_of_startsBody more starts) (.unmarked (by simp [unmarked])) body
  | quote | expand | evaluate =>
      refine .body (.stop ?_) (.marked ?_) body
      · simp [Modifier.characters, Modifier.char?, isSeparator]
      · rfl

/-- A tree that is a single segment need only be read as a segment. -/
theorem spelled_of_body {tree : Tree} (readable : tree.isReadable = true)
    (single : tree.isMember = false)
    (body : ∀ (mark : Modifier) (behind : List Char),
      (mark = .plain ∨ tree.takesModifier = true) → Ends tree behind →
      Body mark ((tree.withModifier .plain).spelling ++ behind) (tree.withModifier .plain) behind) :
    Spelled tree := by
  have segment : ∀ (mark : Modifier) (behind : List Char),
      (mark = .plain ∨ tree.takesModifier = true) → Ends tree behind →
      Segment (mark.characters ++ (tree.withModifier .plain).spelling ++ behind) mark
        (tree.withModifier .plain) behind := by
    intro mark behind allowed stops
    have inside := body mark behind allowed stops
    obtain ⟨ch, more, spelled, starts, _⟩ := head_spelling tree readable
    rw [spelled] at inside
    rw [List.append_assoc, spelled]
    exact segment_of_body starts inside
  refine ⟨fun _ => segment, fun mark behind fields rest allowed stops chain => ?_⟩
  have leftmost : tree.leftmost = tree := by
    cases tree with
    | member => cases single
    | leaf | list | record => rfl
  rw [leftmost] at allowed
  exact .segments (segment mark behind allowed stops) chain

theorem takesModifier_of_isReadable {tree : Tree} (readable : tree.isReadable = true) :
    tree.modifier = .plain ∨ tree.leftmost.takesModifier = true := by
  cases tree with
  | leaf modifier value =>
      cases value <;> simp_all [Tree.isReadable, Leaf.isPrintable, Tree.leftmost,
        Tree.takesModifier, Tree.modifier]
  | list => exact .inr rfl
  | record => exact .inl rfl
  | member modifier target field =>
      simp only [Tree.isReadable, Bool.and_eq_true, Bool.or_eq_true, beq_iff_eq] at readable
      exact readable.2

/-- A tree with its own modifier and no fields behind it. -/
theorem Spelled.whole {tree : Tree} (spelled : Spelled tree) (readable : tree.isReadable = true)
    {behind rest : List Char} (stops : Stops behind) (skips : Skips behind rest)
    (noPoint : rest.head? ≠ some '.') : Atom (tree.spelling ++ behind) tree rest := by
  have atom := spelled.atom tree.modifier behind [] rest (takesModifier_of_isReadable readable)
    (stops.ends tree) (.stop skips noPoint)
  have same : ((tree.withModifier .plain).chain []).withModifier tree.modifier = tree := by
    cases tree <;> rfl
  rwa [same, ← spelling_eq] at atom

/-- A member expression is read as its target with one more field behind it. -/
theorem spelled_member {modifier : Modifier} {target field : Tree} (isTarget : Spelled target)
    (isField : Spelled field) (readable : (Tree.member modifier target field).isReadable = true) :
    Spelled (.member modifier target field) := by
  simp only [Tree.isReadable, Bool.and_eq_true, beq_iff_eq, bne_iff_ne,
    Bool.not_eq_true'] at readable
  obtain ⟨⟨⟨⟨⟨⟨_, unmarked⟩, readableField⟩, single⟩, noFraction⟩, noExpand⟩, _⟩ := readable
  refine ⟨fun member => (by cases member), fun mark behind fields rest allowed stops chain => ?_⟩
  -- the text behind the target is a point, the last field, and what follows the whole
  have allowedField : field.modifier = .plain ∨ field.takesModifier = true := by
    rcases takesModifier_of_isReadable readableField with plain | takes
    · exact .inl plain
    · refine .inr ?_
      cases field with
      | member => cases single
      | leaf | list | record => exact takes
  have stopsField : Ends field behind := stops
  have segment := isField.segment single field.modifier behind allowedField stopsField
  rw [← spelling_eq] at segment
  have more : Chain ('.' :: field.spelling ++ behind) (field :: fields) rest := by
    have same : (field.withModifier .plain).withModifier field.modifier = field := by
      cases field <;> rfl
    have chained := Chain.field (skips_cons _ rfl (by decide)) segment noExpand chain
    rwa [same] at chained
  have stopsTarget : Ends target ('.' :: field.spelling ++ behind) := by
    refine ⟨by simp [EndsLiteral, endsLiteral], fun inInteger => ?_⟩
    obtain ⟨ch, text, spelled, _, digit⟩ := head_spelling field readableField
    rw [spelling_eq, spelled]
    cases field.modifier with
    | plain =>
        refine (stops_point _ (Bool.eq_false_iff.mpr fun isDigit => ?_)).2
        rcases digit isDigit with unsigned | member
        · rw [inInteger, unsigned] at noFraction
          cases noFraction
        · rw [single] at member
          cases member
    | quote | expand | evaluate => exact (stops_point _ rfl).2
  have atom := isTarget.atom mark _ (field :: fields) rest allowed stopsTarget more
  have spelled : target.spelling = (target.withModifier .plain).spelling := by
    rw [spelling_eq, unmarked]
    rfl
  have plainTarget : target.withModifier .plain = target := by
    cases target <;> simp_all [Tree.withModifier, Tree.modifier]
  have text :
      (Tree.member .plain target field).spelling = target.spelling ++ '.' :: field.spelling := by
    simp [Tree.spelling, Modifier.characters, Modifier.char?]
  rw [plainTarget] at atom
  change Atom (mark.characters ++ (Tree.member .plain target field).spelling ++ behind) _ rest
  rw [text]
  simpa [Tree.withModifier] using atom

/-- The spelling of a tree starts with a character that is not skipped, and not with a point. -/
theorem visible_spelling {tree : Tree} (readable : tree.isReadable = true) :
    ∃ ch more, tree.spelling = ch :: more ∧ isSeparator ch = false ∧ ch ≠ ';' ∧ ch ≠ '.' := by
  obtain ⟨ch, more, spelled, starts, _⟩ := head_spelling tree readable
  rw [spelling_eq, spelled]
  cases tree.modifier with
  | plain =>
      simp only [startsBody, Bool.and_eq_true, Bool.not_eq_true', bne_iff_ne] at starts
      exact ⟨ch, more, rfl, starts.1.1.1, starts.1.1.2, starts.1.2⟩
  | quote | expand | evaluate => exact ⟨_, ch :: more, rfl, rfl, by decide, by decide⟩

theorem Spelled.lastItem {item : Tree} (spelled : Spelled item) (readable : item.isReadable = true)
    (rest : List Char) : Items (item.spelling ++ ')' :: rest) [item] rest := by
  have closes : Skips (')' :: rest) (')' :: rest) := skips_cons rest rfl (by decide)
  exact .item (spelled.whole readable (stops_cons rest rfl (by decide)) closes (by simp))
    (.close closes)

theorem Spelled.item {item next : Tree} {items : List Tree} {text rest : List Char}
    (spelled : Spelled item) (readable : item.isReadable = true)
    (readableNext : next.isReadable = true) (others : Items (next.spelling ++ text) items rest) :
    Items (item.spelling ++ ' ' :: (next.spelling ++ text)) (item :: items) rest := by
  obtain ⟨ch, more, starts, solid, noComment, noPoint⟩ := visible_spelling readableNext
  rw [starts, List.cons_append] at others ⊢
  have skips : Skips (' ' :: ch :: (more ++ text)) (ch :: (more ++ text)) :=
    .separator rfl (skips_cons _ solid noComment)
  exact .item (spelled.whole readable (stops_cons _ rfl (by decide)) skips (by simpa using noPoint))
    others

/-- An entry of a record literal, in front of a text that starts no access. -/
theorem Spelled.entry {name : String} {value : Tree} {ch : Char} {more : List Char}
    {fields : List (String × Tree)} {rest : List Char} (spelled : Spelled value)
    (lexes : lexesAsToken name = true) (readable : value.isReadable = true)
    (visible : isSeparator ch = false ∧ ch ≠ ';' ∧ ch ≠ '.')
    (others : Entries (ch :: more) fields rest) :
    Entries ('(' :: name.toList ++ ' ' :: value.spelling ++ ')' :: ch :: more)
      ((name, value) :: fields) rest := by
  have spelledName : Spelled (.leaf .plain (.token name)) :=
    spelled_of_body lexes rfl fun mark behind _ stops =>
      .leaf (token_spelling lexes stops.1.endsToken) (by simp [ReadM.isLiteral])
  have items := spelledName.item lexes readable (spelled.lastItem readable (ch :: more))
  have segment := @segment_of_body .plain '(' _ _ _ rfl (.list items)
  have atom := Atom.segments segment
    (.stop (skips_cons more visible.1 visible.2.1) (by simpa using visible.2.2))
  refine @Entries.entry _ _ _ .plain .plain _ _ _ _ ?_ (.inl rfl) others
  simpa [Tree.chain, Tree.withModifier, Tree.spelling, Modifier.characters, Modifier.char?,
    Leaf.spelling] using atom

-- One case for each constructor of a tree. Items and entries are followed by a character that ends
-- every literal, so the statement for trees applies to each of them.
mutual

theorem spelled_of_isReadable : ∀ tree : Tree, tree.isReadable = true → Spelled tree
  | .leaf modifier value, readable => by
      refine spelled_of_body readable rfl fun mark behind allowed stops => ?_
      refine .leaf (leaf_spelling readable stops) fun literal => ?_
      rcases allowed with plain | takes
      · exact plain
      · cases value <;> cases literal <;> cases takes
  | .list modifier items, readable => by
      refine spelled_of_body readable rfl fun mark behind _ _ => ?_
      have inside := items_spelling items readable behind
      simpa [Tree.withModifier, Tree.spelling, Modifier.characters, Modifier.char?]
        using Body.list inside
  | .record fields, readable => by
      refine spelled_of_body readable rfl fun mark behind allowed _ => ?_
      have inside := entries_spelling fields readable behind
      rcases allowed with rfl | takes
      · simpa [Tree.withModifier, Tree.spelling] using Body.record inside
      · cases takes
  | .member modifier target field, readable => by
      have parts := readable
      simp only [Tree.isReadable, Bool.and_eq_true] at parts
      exact spelled_member (spelled_of_isReadable target parts.1.1.1.1.1.1)
        (spelled_of_isReadable field parts.1.1.1.1.2) readable

theorem items_spelling : ∀ items : List Tree, Tree.areReadable items = true → ∀ rest,
    Items (Tree.itemsSpelling items ++ ')' :: rest) items rest
  | [], _, rest => .close (skips_cons rest rfl (by decide))
  | item :: items, readable, rest => by
      simp only [Tree.areReadable, Bool.and_eq_true] at readable
      have spelled := spelled_of_isReadable item readable.1
      have others := items_spelling items readable.2 rest
      cases items with
      | nil => exact spelled.lastItem readable.1 rest
      | cons next items =>
          simp only [Tree.areReadable, Bool.and_eq_true] at readable
          obtain ⟨text, spelledItems⟩ :
              ∃ text, Tree.itemsSpelling (next :: items) = next.spelling ++ text := by
            rw [Tree.itemsSpelling]
            split
            · exact ⟨[], (List.append_nil _).symm⟩
            · exact ⟨_, rfl⟩
          rw [spelledItems, List.append_assoc] at others
          rw [Tree.itemsSpelling, if_neg (by simp), spelledItems]
          simpa using spelled.item readable.1 readable.2.1 others

theorem entries_spelling : ∀ fields : List (String × Tree), Tree.fieldsReadable fields = true →
    ∀ rest, Entries (Tree.fieldsSpelling fields ++ ']' :: rest) fields rest
  | [], _, rest => .close (skips_cons rest rfl (by decide))
  | (name, value) :: fields, readable, rest => by
      simp only [Tree.fieldsReadable, Bool.and_eq_true] at readable
      have spelled := spelled_of_isReadable value readable.1.2
      have others := entries_spelling fields readable.2 rest
      obtain ⟨ch, more, same, visible⟩ : ∃ ch more,
          Tree.fieldsSpelling fields ++ ']' :: rest = ch :: more ∧
            isSeparator ch = false ∧ ch ≠ ';' ∧ ch ≠ '.' := by
        cases fields with
        | nil => exact ⟨']', rest, rfl, rfl, by decide, by decide⟩
        | cons => exact ⟨'(', _, rfl, rfl, by decide, by decide⟩
      rw [same] at others
      have entry := spelled.entry readable.1.1 readable.1.2 visible others
      rw [← same] at entry
      simpa [Tree.fieldsSpelling] using entry

end

/-- The spelling of a readable tree is a program that is read as the tree. -/
theorem program_spelling {tree : Tree} (readable : tree.isReadable = true) :
    Program tree.spelling tree := by
  have atom := (spelled_of_isReadable tree readable).whole readable stops_nil
    (.stop (by simp)) (by simp)
  rwa [List.append_nil] at atom

end Grammar

end RecordLisp
