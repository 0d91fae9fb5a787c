import RecordLisp.Proofs.Source.Forward
import RecordLisp.Proofs.Source.Tokens

/-!
# What may be written bare, and what in quotes

An image writes a token bare when `lexesAsToken` accepts its name, and a string in quotes when the
text holds no double quote. Both guards are written without the reader. Here they are compared with
it, in both directions: what passes is scanned back up to its last character wherever a leaf may
end, and what is read as a token or scanned back as a string passes.

The reader knows four separators. The guard of names asks for more: no blank of any alphabet may
stand in a name, though the reader takes most of them for characters of a token. That is the only
difference.
-/

namespace RecordLisp

open Effect

/-- The position behind a text that starts at a position. -/
def Position.after (position : Position) (text : List Char) : Position :=
  text.foldl Position.next position

theorem Position.after_append (position : Position) (text more : List Char) :
    position.after (text ++ more) = (position.after text).after more :=
  List.foldl_append

/-! ## Where a scanner stops -/

namespace Cursor

/-- Whether a cursor stands behind some of the text that another one stands at. -/
def Follows (start cursor : Cursor) : Prop :=
  ∃ passed, start.rest = passed ++ cursor.rest ∧ cursor.position = start.position.after passed

theorem follows_self (start : Cursor) : start.Follows start := ⟨[], rfl, rfl⟩

theorem forward_follows (start : Cursor) : Forward start.Follows := by
  constructor
  rintro ch rest position ⟨passed, whole, place⟩
  refine ⟨passed ++ [ch], ?_, ?_⟩
  · rw [whole, List.append_assoc, List.singleton_append]
  · have here : position = start.position.after passed := place
    rw [Position.after_append, here]
    rfl

/-- A cursor further on in a text is known by what it leaves of the text. -/
theorem Follows.eq {text behind : List Char} {position : Position} {cursor : Cursor}
    (follows : Follows ⟨text ++ behind, position⟩ cursor) (left : cursor.rest = behind) :
    cursor = ⟨behind, position.after text⟩ := by
  obtain ⟨passed, whole, place⟩ := follows
  obtain ⟨rest, here⟩ := cursor
  cases left
  obtain rfl : text = passed := List.append_cancel_right whole
  exact congrArg (Cursor.mk rest) place

/-- A scanner that leaves what is behind a text stops at the place behind this text. -/
theorem scanned_eq {α : Type} {text behind : List Char} {position : Position} {scanned : Scanned α}
    {value : α} (scans : Scans scanned value behind)
    (stops : StopsWith (Follows ⟨text ++ behind, position⟩) scanned) :
    scanned = (.ok value, ⟨behind, position.after text⟩) := by
  obtain ⟨cursor, rfl, left⟩ := scans
  have place : Follows ⟨text ++ behind, position⟩ cursor := stops.stops
  rw [place.eq left]

end Cursor

/-! ## Characters -/

theorem isSeparator_iff_mem {ch : Char} : isSeparator ch = true ↔ ch ∈ [' ', '\t', '\r', '\n'] := by
  simp [isSeparator, or_assoc]

theorem endsToken_iff_mem {ch : Char} :
    endsToken ch = true ↔ ch ∈ [' ', '\t', '\r', '\n', '.', '(', ')'] := by
  simp [endsToken, isSeparator, or_assoc]

theorem endsLiteral_iff_mem {ch : Char} :
    endsLiteral ch = true ↔ ch ∈ [' ', '\t', '\r', '\n', '.', ')'] := by
  simp [endsLiteral, isSeparator, or_assoc]

theorem isBlank_of_isSeparator {ch : Char} (separates : isSeparator ch = true) :
    Text.isBlank ch = true := by
  simp only [isSeparator, Bool.or_eq_true, beq_iff_eq] at separates
  rcases separates with ((rfl | rfl) | rfl) | rfl <;> decide

/-- Blanks that separate nothing are the only characters that break a name and do not end a
token. -/
theorem breaksToken_eq_endsToken {ch : Char}
    (known : Text.isBlank ch = true → isSeparator ch = true) :
    breaksToken ch = endsToken ch := by
  have same : Text.isBlank ch = isSeparator ch :=
    Bool.eq_iff_iff.mpr ⟨known, isBlank_of_isSeparator⟩
  rw [breaksToken, endsToken, same]

/-! ## Tokens -/

namespace Grammar

/-- The rule for tokens says how a token that it reads starts. -/
theorem Lexeme.token_starts {input rest : List Char} {name : String}
    (lexeme : Lexeme input (.token name) rest) :
    ∃ first more, name.toList = first :: more ∧ startsNumber (first :: more) = false ∧
      name ≠ "nil" ∧ first ≠ '\x22' ∧ first ≠ '[' ∧ first ≠ ']' := by
  generalize read : Leaf.token name = value at lexeme
  cases lexeme with
  | string | integer | decimal => cases read
  | @token first more _ noNumber noQuote noOpening noClosing =>
      unfold tokenLeaf at read
      split at read
      · cases read
      · rename_i notNil
        cases read
        exact ⟨first, more, String.toList_ofList, startsNumber_eq_false_of_append noNumber, notNil,
          noQuote, noOpening, noClosing⟩

/-- Where the text of a program is the name of the unmarked token that it is read as, the token
stands at its start, and nothing is skipped or taken for a modifier. -/
theorem Program.lexeme {name : String}
    (isProgram : Program name.toList (.leaf .plain (.token name))) :
    Lexeme name.toList (.token name) [] ∧
      ∀ ch ∈ name.toList.head?, Modifier.ofChar? ch = none ∧ ch ≠ ';' := by
  obtain ⟨middle, skips, marked, body⟩ := Atom.single isProgram rfl
  cases marked with
  | marked known => cases Modifier.ofChar?_eq_some_iff.mp known
  | unmarked unmarked =>
      cases body with
      | leaf lexeme _ =>
          obtain ⟨rfl, _⟩ := lexeme.isToken
          -- the name is all of the text, so nothing was skipped and nothing is left
          have short := skips.length_le
          rw [List.length_append] at short
          obtain rfl : middle = [] := List.length_eq_zero_iff.mp (by omega)
          rw [List.append_nil] at lexeme unmarked skips
          exact ⟨lexeme, fun ch mem => ⟨unmarked ch mem, (skips.visible ch mem).2⟩⟩

end Grammar

/-- A name that the guard accepts is scanned as a token, up to its last character. -/
theorem scanLeaf_of_lexesAsToken {name : String} (lexes : lexesAsToken name = true)
    {behind : List Char} (ends : Grammar.EndsToken behind) (position : Position) :
    Cursor.scanLeaf ⟨name.toList ++ behind, position⟩ =
      (.ok (.token name), ⟨behind, position.after name.toList⟩) := by
  have scans := (Grammar.token_spelling lexes ends).scans position
  have forward := Cursor.forward_follows ⟨name.toList ++ behind, position⟩
  exact Cursor.scanned_eq scans (forward.scanLeaf (Cursor.follows_self _))

namespace ReadM

/-- Nothing is skipped in front of a character that neither separates nor opens a comment. -/
theorem gives_skipTrivia {state : ReadState}
    (visible : ∀ ch ∈ state.cursor.rest.head?, isSeparator ch = false ∧ ch ≠ ';') :
    Gives skipTrivia state () state := by
  obtain ⟨⟨rest, position⟩, heap⟩ := state
  cases rest with
  | nil => rfl
  | cons ch rest =>
      obtain ⟨solid, noComment⟩ := visible ch rfl
      have stays : Cursor.skipTrivia ⟨ch :: rest, position⟩ = ⟨ch :: rest, position⟩ := by
        simp [Cursor.skipTrivia, Cursor.skipTriviaFrom, solid, noComment]
      exact congrArg (fun cursor => (Except.ok (), ReadState.mk cursor heap)) stays

/-- A modifier is read from its character, and no modifier where no such character comes next. -/
theorem gives_modifier (mark : Modifier) {input : List Char}
    (unmarked : ∀ ch ∈ input.head?, Modifier.ofChar? ch = none) (position : Position)
    (heap : Heap) :
    Gives modifier ⟨⟨mark.characters ++ input, position⟩, heap⟩ mark
      ⟨⟨input, position.after mark.characters⟩, heap⟩ := by
  cases mark with
  | quote | expand | evaluate => rfl
  | plain =>
      have absent : input.head?.bind Modifier.ofChar? = none := by
        cases input with
        | nil => rfl
        | cons ch input => exact unmarked ch rfl
      have reads : outcome cursor ⟨⟨input, position⟩, heap⟩ =
          (.ok ⟨input, position⟩, ⟨⟨input, position⟩, heap⟩) := rfl
      change outcome modifier ⟨⟨input, position⟩, heap⟩ = (.ok .plain, ⟨⟨input, position⟩, heap⟩)
      rw [modifier, outcome_bind_of_ok reads, Cursor.peek?, absent]
      rfl

/-- A token is a leaf behind any modifier. -/
theorem gives_leaf_token (mark : Modifier) {state : ReadState} {after : Cursor} {name : String}
    (scans : Cursor.scanLeaf state.cursor = (.ok (.token name), after))
    (nonempty : Leaf.token name ≠ .token "") :
    Gives (leaf mark) state (.token name) { state with cursor := after } := by
  have reads : outcome cursor state = (.ok state.cursor, state) := rfl
  have given : Gives (scan Cursor.scanLeaf) state (.token name) { state with cursor := after } :=
    gives_scan_iff.mpr ⟨after, scans, rfl⟩
  have noLiteral : ¬ (mark ≠ .plain ∧ isLiteral (.token name) = true) := by simp [isLiteral]
  rw [Gives, leaf, outcome_bind_of_ok reads, outcome_bind_of_ok given, if_neg noLiteral,
    if_neg nonempty]
  rfl

/-- A body that starts with no parenthesis and no bracket is a leaf. -/
theorem outcome_body_of_leaf (read : ReadM Atom) (rounds : Nat) (mark : Modifier) {first : Char}
    (starts : first ∉ ['(', ')', '[', ']', '.']) (more : List Char) (position : Position)
    (heap : Heap) :
    outcome (body read rounds mark) ⟨⟨first :: more, position⟩, heap⟩ =
      outcome (leaf mark) ⟨⟨first :: more, position⟩, heap⟩ := by
  have reads : outcome cursor ⟨⟨first :: more, position⟩, heap⟩ =
      (.ok ⟨first :: more, position⟩, ⟨⟨first :: more, position⟩, heap⟩) := rfl
  rw [body, outcome_bind_of_ok reads]
  simp only [Cursor.peek?, List.head?_cons]
  split
  case h_1 => contradiction
  case h_2 | h_3 | h_4 | h_5 =>
      rename_i same
      cases same
      simp at starts
  case h_6 => rfl

section Guarded

variable (read : ReadM Atom) (rounds : Nat) (mark : Modifier) {name : String}
  (lexes : lexesAsToken name = true) {behind : List Char} (ends : Grammar.EndsToken behind)
  (position : Position) (heap : Heap)
include lexes ends

theorem gives_body_of_lexesAsToken :
    Gives (body read rounds mark) ⟨⟨name.toList ++ behind, position⟩, heap⟩ (.token name)
      ⟨⟨behind, position.after name.toList⟩, heap⟩ := by
  have lexeme := Grammar.token_spelling lexes ends
  have scans := scanLeaf_of_lexesAsToken lexes ends position
  cases spelled : name.toList ++ behind with
  | nil =>
      rw [spelled] at lexeme
      exact absurd lexeme.length_lt (Nat.not_lt_zero _)
  | cons first more =>
      rw [spelled] at lexeme scans
      rw [Gives, outcome_body_of_leaf read rounds mark (lexeme.head_not_mem first rfl)]
      exact gives_leaf_token mark scans lexeme.ne_empty

/-- Reading an atom where a name stands that the guard accepts, behind a modifier or none, is
reading the token and then looking for an access right behind the name. -/
theorem outcome_step_of_lexesAsToken :
    outcome (step read rounds) ⟨⟨mark.characters ++ name.toList ++ behind, position⟩, heap⟩ =
      outcome (do return (← access read (.token name)).withModifier mark)
        ⟨⟨behind, position.after (mark.characters ++ name.toList)⟩, heap⟩ := by
  obtain ⟨first, more, spelled, starts, _⟩ := @Grammar.head_leaf .plain (.token name) lexes
  change name.toList = first :: more at spelled
  simp only [Grammar.startsBody, Bool.and_eq_true, Bool.not_eq_true', bne_iff_ne,
    Option.isNone_iff_eq_none] at starts
  obtain ⟨⟨⟨solid, noComment⟩, _⟩, unmarked⟩ := starts
  have skips : Gives skipTrivia
      ⟨⟨mark.characters ++ name.toList ++ behind, position⟩, heap⟩ ()
      ⟨⟨mark.characters ++ name.toList ++ behind, position⟩, heap⟩ := by
    apply gives_skipTrivia
    cases mark with
    | plain => simp [Modifier.characters, Modifier.char?, spelled, solid, noComment]
    | quote | expand | evaluate => simp [Modifier.characters, Modifier.char?, isSeparator]
  have known : ∀ ch ∈ (name.toList ++ behind).head?, Modifier.ofChar? ch = none := by
    simpa [spelled] using unmarked
  have marked := gives_modifier mark known position heap
  have inside := gives_body_of_lexesAsToken read rounds mark lexes ends
    (position.after mark.characters) heap
  rw [← List.append_assoc] at marked
  rw [step, outcome_bind_of_ok skips, outcome_bind_of_ok marked, outcome_bind_of_ok inside,
    Position.after_append]

end Guarded

end ReadM

/-! ## Tokens that are read alone -/

/-- Without blanks that separate nothing, a name is read alone as the unmarked token exactly when
the guard accepts it. -/
theorem read_token_iff {name : String}
    (known : ∀ ch ∈ name.toList, Text.isBlank ch = true → isSeparator ch = true) (title : String)
    (heap : Heap) :
    (Source.read ⟨title, name⟩ heap).1 = .ok (.token name) ↔ lexesAsToken name = true := by
  constructor
  · intro reads
    obtain ⟨heap', accepted⟩ :
      ∃ heap', Source.read ⟨title, name⟩ heap = (.ok (.token name), heap') :=
      ⟨_, Prod.ext reads rfl⟩
    obtain ⟨tree, isProgram, built⟩ := Source.read_eq_ok_iff.mp accepted
    obtain ⟨_, _, rfl, _⟩ := Tree.build_eq_named built rfl
    cases built
    obtain ⟨lexeme, unmarked⟩ := isProgram.lexeme
    obtain ⟨first, more, spelled, noNumber, notNil, noQuote, noOpening, noClosing⟩ :=
      lexeme.token_starts
    obtain ⟨noMark, noComment⟩ := unmarked first (by rw [spelled]; rfl)
    refine Grammar.lexesAsToken_iff.mpr ⟨first, more, spelled, noNumber, notNil,
      Grammar.marksNoToken_eq_false_iff.mpr ⟨noMark, noQuote, noOpening, noClosing, noComment⟩, ?_⟩
    intro ch mem
    rw [← spelled] at mem
    rw [breaksToken_eq_endsToken (known ch mem)]
    exact lexeme.isToken.2.solid ch mem
  · intro lexes
    have phrase : Grammar.Phrase name.toList (.leaf .plain (.token name)) :=
      @Grammar.phrase_spelling (.leaf .plain (.token name)) lexes
    have isProgram : Grammar.Program (Source.mk title name).content.toList
        (.leaf .plain (.token name)) := phrase.program
    rw [Source.read_of_program isProgram]
    rfl

/-- A no-break space stands inside a token, but not in a name that is written bare. -/
example :
    Cursor.scanLeaf ⟨['a', '\u00a0', 'b'], .start⟩ = (.ok (.token "a\u00a0b"), ⟨[], ⟨3, 1, 4⟩⟩) ∧
    lexesAsToken "a\u00a0b" = false := by decide

/-! ## Strings -/

namespace Grammar

/-- The literal of a text closes at the first double quote of the text. -/
theorem characters_cut {front : List Char} (noQuote : '\x22' ∉ front) (back behind : List Char) :
    Characters ((front ++ '\x22' :: back).flatMap Text.escapeLiteral ++ '\x22' :: behind) front
      (back.flatMap Text.escapeLiteral ++ '\x22' :: behind) := by
  have written : Text.escapeLiteral '\x22' = ['\x22'] := rfl
  rw [List.flatMap_append, List.flatMap_cons, written, List.append_assoc, List.append_assoc]
  exact characters_spelling noQuote

/-- The literal of a text is read as the text only when the text holds no double quote. -/
theorem Characters.no_quote {text behind rest : List Char}
    (characters : Characters (text.flatMap Text.escapeLiteral ++ '\x22' :: behind) text rest) :
    '\x22' ∉ text := by
  intro mem
  obtain ⟨front, back, split, noQuote⟩ := List.eq_append_cons_of_mem mem
  have cut := characters_cut noQuote back behind
  rw [← split] at cut
  obtain ⟨whole, _⟩ := cut.unique characters
  rw [whole] at noQuote
  exact noQuote mem

end Grammar

theorem Text.toList_quoted (text : String) :
    (Text.quoted text).toList = '\x22' :: text.toList.flatMap Text.escapeLiteral ++ ['\x22'] := by
  simp [Text.quoted]

/-- The literal of a text is scanned as the text, up to the closing quote, exactly when the text
holds no double quote. -/
theorem scanString_quoted_iff (text : String) {behind : List Char}
    (ends : Grammar.EndsLiteral behind) (position : Position) :
    Cursor.scanString ⟨(Text.quoted text).toList ++ behind, position⟩ =
        (.ok (.string text), ⟨behind, position.after (Text.quoted text).toList⟩) ↔
      '\x22' ∉ text.toList := by
  have spelled : (Text.quoted text).toList ++ behind =
      '\x22' :: (text.toList.flatMap Text.escapeLiteral ++ '\x22' :: behind) := by
    rw [Text.toList_quoted]
    simp
  constructor
  · intro scanned
    rw [spelled] at scanned
    obtain ⟨characters, inside, _, same⟩ := (scanString_iff _ _ _ _).mp ⟨_, scanned, rfl⟩
    have whole : characters = text.toList := by
      rw [Leaf.string.inj same, String.toList_ofList]
    rw [whole] at inside
    exact inside.no_quote
  · intro noQuote
    have inside := @Grammar.characters_spelling text.toList behind noQuote
    have scans : Scans (Cursor.scanString ⟨(Text.quoted text).toList ++ behind, position⟩)
        (.string text) behind := by
      rw [spelled, scanString_iff]
      exact ⟨text.toList, inside, ends, by rw [String.ofList_toList]⟩
    have forward := Cursor.forward_follows ⟨(Text.quoted text).toList ++ behind, position⟩
    exact Cursor.scanned_eq scans (forward.scanString (Cursor.follows_self _))

/-! ## The guards are exact -/

namespace Image

/-- The guards of names and texts agree with the reader. A name that passes is read back as a token
wherever a token may end behind it and behind any modifier: it is scanned up to its last character,
and reading the atom goes on right behind it. A name without blanks other than the separators is
read alone as the unmarked token only when it passes. And the literal of a text is scanned back, up
to its closing quote, exactly when the text holds no double quote. -/
theorem leaf_guards_are_exact (text : String) (position : Position) (heap : Heap) :
    (lexesAsToken text = true → ∀ behind : List Char,
      (∀ ch ∈ behind.head?, ch ∈ [' ', '\t', '\r', '\n', '.', '(', ')']) →
      Cursor.scanLeaf ⟨text.toList ++ behind, position⟩ =
          (.ok (.token text), ⟨behind, position.after text.toList⟩) ∧
        ∀ (mark : Modifier) (fuel : Nat),
          outcome (ReadM.atom (fuel + 1))
            ⟨⟨mark.characters ++ text.toList ++ behind, position⟩, heap⟩ =
            outcome (do return (← ReadM.access (ReadM.atom fuel) (.token text)).withModifier mark)
              ⟨⟨behind, position.after (mark.characters ++ text.toList)⟩, heap⟩) ∧
    ((∀ ch ∈ text.toList, Text.isBlank ch = true → ch ∈ [' ', '\t', '\r', '\n']) → ∀ title : String,
      (Source.read ⟨title, text⟩ heap).1 = .ok (.token text) ↔ lexesAsToken text = true) ∧
    ∀ behind : List Char, (∀ ch ∈ behind.head?, ch ∈ [' ', '\t', '\r', '\n', '.', ')']) →
      (Cursor.scanString ⟨(Text.quoted text).toList ++ behind, position⟩ =
          (.ok (.string text), ⟨behind, position.after (Text.quoted text).toList⟩) ↔
        '\x22' ∉ text.toList) := by
  refine ⟨fun lexes behind ends => ?_, fun known title => ?_, fun behind ends => ?_⟩
  · have endsToken : Grammar.EndsToken behind := fun ch mem => endsToken_iff_mem.mpr (ends ch mem)
    refine ⟨scanLeaf_of_lexesAsToken lexes endsToken position, fun mark fuel => ?_⟩
    exact ReadM.outcome_step_of_lexesAsToken (ReadM.atom fuel)
      fuel mark lexes endsToken position heap
  · exact read_token_iff (fun ch mem blank => isSeparator_iff_mem.mpr (known ch mem blank))
      title heap
  · have endsLiteral : Grammar.EndsLiteral behind := fun ch mem =>
      endsLiteral_iff_mem.mpr (ends ch mem)
    exact scanString_quoted_iff text endsLiteral position

/-- A lone minus sign is a token, also in front of a point and a digit. A text in quotes of its own
has no literal. -/
theorem leaf_guards_are_exact_minus :
    lexesAsToken "-" = true ∧
    Cursor.scanLeaf ⟨['-', '.', '5', ')'], .start⟩ =
      (.ok (.token "-"), ⟨['.', '5', ')'], ⟨1, 1, 2⟩⟩) ∧
    outcome (ReadM.atom 4) ⟨⟨['\x27', '-', '.', '5', ')'], .start⟩, .empty⟩ =
      outcome (do return (← ReadM.access (ReadM.atom 3) (.token "-")).withModifier .quote)
        ⟨⟨['.', '5', ')'], ⟨2, 1, 3⟩⟩, .empty⟩ ∧
    (Source.read ⟨"<input>", "-"⟩ .empty).1 = .ok (.token "-") ∧
    Cursor.scanString ⟨['\x22', '-', '\x22', ')'], .start⟩ =
      (.ok (.string "-"), ⟨[')'], ⟨3, 1, 4⟩⟩) ∧
    '\x22' ∈ "a \x22b\x22".toList ∧
    Cursor.scanString ⟨(Text.quoted "a \x22b\x22").toList ++ [')'], .start⟩ ≠
      (.ok (.string "a \x22b\x22"),
        ⟨[')'], Position.start.after (Text.quoted "a \x22b\x22").toList⟩) := by
  have lexes : lexesAsToken "-" = true := by decide
  have separators : ∀ ch ∈ "-".toList, Text.isBlank ch = true → ch ∈ [' ', '\t', '\r', '\n'] :=
    List.forall_mem_singleton.mpr (by decide)
  have point : ∀ ch ∈ ['.', '5', ')'].head?, ch ∈ [' ', '\t', '\r', '\n', '.', '(', ')'] := by simp
  have closing : ∀ ch ∈ [')'].head?, ch ∈ [' ', '\t', '\r', '\n', '.', ')'] := by simp
  have quoted : '\x22' ∈ "a \x22b\x22".toList := by decide
  obtain ⟨read, alone, written⟩ := leaf_guards_are_exact "-" .start .empty
  obtain ⟨-, -, unwritten⟩ := leaf_guards_are_exact "a \x22b\x22" .start .empty
  obtain ⟨scanned, goesOn⟩ := read lexes _ point
  exact ⟨lexes, scanned, goesOn .quote 3, (alone separators "<input>").mpr lexes,
    (written _ closing).mpr (by decide), quoted,
    fun scanned => (unwritten _ closing).mp scanned quoted⟩

end Image

end RecordLisp
