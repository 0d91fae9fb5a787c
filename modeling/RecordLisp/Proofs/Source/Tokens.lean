import RecordLisp.Proofs.Source.Phrase

/-!
# Tokens in another place

Source text has more tokens than those that names are written with: behind a modifier a token can
start with a semicolon or with another modifier, and quote marks and brackets can stand inside it.
What was once read as a token is read as this token wherever one may end, so a list of tokens can be
taken apart and written again with blanks between its items.
-/

namespace RecordLisp

theorem startsNumber_eq_false_of_append {text rest : List Char}
    (noNumber : startsNumber (text ++ rest) = false) : startsNumber text = false := by
  match text with
  | [] => rfl
  | [ch] =>
      by_cases minus : ch = '-'
      · rw [minus]
        rfl
      · simpa [startsNumber, minus] using noNumber
  | ch :: next :: text =>
      by_cases minus : ch = '-'
      · subst minus
        exact noNumber
      · simpa [startsNumber, minus] using noNumber

theorem Tree.isMember_chain {first : Tree} (member : first.isMember = true) (fields : List Tree) :
    (first.chain fields).isMember = true := by
  induction fields generalizing first with
  | nil => exact member
  | cons field fields ih => exact ih rfl

namespace Grammar

/-- A name whose characters are read as a token in front of anything that ends one. -/
structure Token (name : String) : Prop where
  nonempty : name.toList ≠ []
  solid : ∀ ch ∈ name.toList, endsToken ch = false
  lexeme : ∀ {behind : List Char}, EndsToken behind →
    Lexeme (name.toList ++ behind) (.token name) behind

/-- A token is read again from its characters, whatever ends it. -/
theorem Lexeme.isToken {input rest : List Char} {name : String}
    (lexeme : Lexeme input (.token name) rest) : input = name.toList ++ rest ∧ Token name := by
  generalize read : Leaf.token name = value at lexeme
  cases lexeme with
  | string | integer | decimal => cases read
  | @token first characters _ noNumber noQuote noOpening noClosing solid _ =>
      have spelled : name.toList = first :: characters := by
        unfold tokenLeaf at read
        split at read
        · cases read
        · rw [Leaf.token.inj read, String.toList_ofList]
      refine ⟨by rw [spelled], by simp [spelled], by rwa [spelled], fun {behind} ends => ?_⟩
      have noNumberHere : startsNumber (first :: characters ++ behind) = false :=
        startsNumber_append (by simp) (startsNumber_eq_false_of_append noNumber) ends
      rw [spelled, read]
      exact .token noNumberHere noQuote noOpening noClosing solid ends

/-- What comes behind separators and comments is neither. -/
theorem Skips.visible {input rest : List Char} (skips : Skips input rest) :
    ∀ ch ∈ rest.head?, isSeparator ch = false ∧ ch ≠ ';' := by
  induction skips with
  | stop visible => exact visible
  | separator _ _ ih => exact ih
  | comment _ _ ih => exact ih
  | lastComment => simp

/-- An atom other than a member expression is one segment. -/
theorem Atom.single {input rest : List Char} {tree : Tree} (atom : Atom input tree rest)
    (single : tree.isMember = false) :
    ∃ middle, Segment input tree.modifier (tree.withModifier .plain) middle := by
  cases atom with
  | @segments _ middle _ mark first fields segment _ =>
      cases fields with
      | nil =>
          obtain ⟨_, unmarked, noMark⟩ := segment.shape
          refine ⟨middle, ?_⟩
          cases first with
          | leaf | list =>
              cases unmarked
              exact segment
          | member => cases single
          | record fields =>
              cases noMark fields rfl
              exact segment
      | cons field fields =>
          have member : (first.chain (field :: fields)).isMember = true :=
            Tree.isMember_chain rfl fields
          cases chained : first.chain (field :: fields) with
          | leaf | list | record =>
              rw [chained] at member
              cases member
          | member =>
              rw [chained] at single
              cases single

/-- A marked or unmarked token is read again in front of anything that ends it. -/
theorem Segment.token_again {input middle behind : List Char} {modifier : Modifier} {name : String}
    (segment : Segment input modifier (.leaf .plain (.token name)) middle)
    (ends : EndsToken behind) :
    Segment (modifier.characters ++ name.toList ++ behind) modifier (.leaf .plain (.token name))
      behind := by
  obtain ⟨skips, marked, body⟩ := segment
  cases body with
  | leaf lexeme _ =>
      obtain ⟨rfl, token⟩ := lexeme.isToken
      have again : Body modifier (name.toList ++ behind) (.leaf .plain (.token name)) behind :=
        .leaf (token.lexeme ends) fun literal => by cases literal
      have visible := skips.visible
      cases marked with
      | @marked ch _ _ known =>
          have written : modifier.characters = [ch] := by
            rw [Modifier.characters, Modifier.ofChar?_eq_some_iff.mp known]
            rfl
          rw [written]
          exact .body (.stop (by simpa using visible)) (.marked known) again
      | unmarked known =>
          -- the first character is one of the token, here and there
          obtain ⟨first, more, spelled⟩ := List.exists_cons_of_ne_nil token.nonempty
          rw [spelled] at known visible again
          exact spelled ▸ .body (.stop visible) (.unmarked known) again

theorem Atom.phrase_of_token {input rest : List Char} {modifier : Modifier} {name : String}
    (atom : Atom input (.leaf modifier (.token name)) rest) :
    Phrase (modifier.characters ++ name.toList) (.leaf modifier (.token name)) := by
  intro behind rest stops skips noPoint
  obtain ⟨middle, segment⟩ := atom.single rfl
  exact .segments (segment.token_again stops.1.endsToken) (.stop skips noPoint)

theorem Atom.isToken {input rest : List Char} {modifier : Modifier} {name : String}
    (atom : Atom input (.leaf modifier (.token name)) rest) : Token name := by
  obtain ⟨middle, segment⟩ := atom.single rfl
  cases segment with
  | body _ _ body =>
      cases body with
      | leaf lexeme _ => exact lexeme.isToken.2

/-- The items of a list are atoms, each in its place. -/
theorem Items.atoms {input rest : List Char} {items : List Tree} (list : Items input items rest) :
    ∀ item ∈ items, ∃ here behind, Atom here item behind := by
  induction items generalizing input with
  | nil => exact List.forall_mem_nil _
  | cons item items ih =>
      cases list with
      | item atom others => exact List.forall_mem_cons.mpr ⟨⟨_, _, atom⟩, ih others⟩

theorem Atom.items {input rest : List Char} {modifier : Modifier} {items : List Tree}
    (atom : Atom input (.list modifier items) rest) :
    ∀ item ∈ items, ∃ here behind, Atom here item behind := by
  obtain ⟨middle, segment⟩ := atom.single rfl
  cases segment with
  | body _ _ body =>
      cases body with
      | list inside => exact inside.atoms

/-- No modifier stands in front of a list that starts with its parenthesis. -/
theorem Atom.list_unmarked {input rest : List Char} {modifier : Modifier} {items : List Tree}
    (atom : Atom ('(' :: input) (.list modifier items) rest) : modifier = .plain := by
  obtain ⟨middle, segment⟩ := atom.single rfl
  cases segment with
  | body skips marked _ =>
      cases skips.unique (skips_cons input rfl (by decide))
      cases marked with
      | marked known => cases known
      | unmarked => rfl

/-- Phrases with a blank in front of each but the first are a sequence. -/
theorem sequence_of_phrases {first : List Char} {tree : Tree} {words : List (List Char × Tree)}
    (phrase : Phrase first tree) (phrases : ∀ word ∈ words, Phrase word.1 word.2) :
    Sequence (first ++ words.flatMap fun word => ' ' :: word.1) (tree :: words.map (·.2)) := by
  induction words generalizing first tree with
  | nil => exact .cons (sequence_blank (List.forall_mem_nil _)) phrase (by simp)
  | cons word words ih =>
      obtain ⟨next, others⟩ := List.forall_mem_cons.mp phrases
      have blank : ∀ ch ∈ [' '], isSeparator ch = true := List.forall_mem_singleton.mpr rfl
      apply ((ih next others).blank blank).cons phrase
      intro ch first
      cases first
      rfl

end Grammar

end RecordLisp
