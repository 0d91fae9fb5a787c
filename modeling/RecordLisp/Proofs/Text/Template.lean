import RecordLisp.Builtin.Characters
import RecordLisp.Proofs.Effect

/-!
# Templates and their grammar

A template is a row of parts: characters, doubled braces and placeholders. Braces delimit
placeholders and spell braces, so a run of them can be cut in several ways; filling decides with one
character of lookahead. It never goes wrong: a template that can be cut into parts is filled with
the texts of these parts, and one that is filled was cut while it was read. The placeholder is the
only part of unbounded length, and is taken apart at its first character that is no digit.
-/

namespace RecordLisp

namespace Text

/-! ## The grammar -/

/-- A part of a template for some values. -/
inductive TemplatePart (values : List String) where
  | plain (ch : Char) (notOpen : ch ≠ '\x7b') (notClose : ch ≠ '\x7d')
  | openBrace
  | closeBrace
  | placeholder (digits : List Char) (nonempty : digits ≠ [])
      (areDigits : ∀ digit ∈ digits, isDigit digit = true)
      (given : digitsValue digits < values.length)

namespace TemplatePart

variable {values : List String}

/-- How a part is written in a template. -/
def spelling : TemplatePart values → List Char
  | .plain ch _ _ => [ch]
  | .openBrace => ['\x7b', '\x7b']
  | .closeBrace => ['\x7d', '\x7d']
  | .placeholder digits _ _ _ => '\x7b' :: (digits ++ ['\x7d'])

/-- What a part is filled with. -/
def text : TemplatePart values → List Char
  | .plain ch _ _ => [ch]
  | .openBrace => ['\x7b']
  | .closeBrace => ['\x7d']
  | .placeholder digits _ _ given => values[digitsValue digits].toList

end TemplatePart

/-- Whether a template is filled with a text: it can be cut into parts that stand for the parts of
the text. -/
def IsFilledWith (values : List String) (template text : List Char) : Prop :=
  ∃ parts : List (TemplatePart values), template = parts.flatMap TemplatePart.spelling ∧
    text = parts.flatMap TemplatePart.text

theorem IsFilledWith.cons {values : List String} {template text : List Char}
    (part : TemplatePart values) (rest : IsFilledWith values template text) :
    IsFilledWith values (part.spelling ++ template) (part.text ++ text) := by
  obtain ⟨parts, rfl, rfl⟩ := rest
  exact ⟨part :: parts, rfl, rfl⟩

/-- A text with each brace doubled. -/
def doubleBraces (text : List Char) : List Char :=
  text.flatMap fun ch => if ch = '\x7b' ∨ ch = '\x7d' then [ch, ch] else [ch]

/-- A template with doubled braces is filled with the text itself, whatever the values. -/
theorem isFilledWith_doubleBraces (values : List String) (text : List Char) :
    IsFilledWith values (doubleBraces text) text := by
  induction text with
  | nil => exact ⟨[], rfl, rfl⟩
  | cons ch text ih =>
      rw [doubleBraces, List.flatMap_cons]
      split
      case isTrue brace =>
        obtain rfl | rfl := brace
        · exact ih.cons .openBrace
        · exact ih.cons .closeBrace
      case isFalse ordinary =>
        obtain ⟨notOpen, notClose⟩ := not_or.mp ordinary
        exact ih.cons (.plain ch notOpen notClose)

/-! ## Placeholders -/

section Placeholder

variable {argument : Nat → Option String} {digits run rest text : List Char}

theorem fillPlaceholder_close :
    fillPlaceholder argument digits ('\x7d' :: rest) = (do
      let text ← placeholderText argument digits
      return text ++ (← fillText argument rest)) := by
  rw [fillPlaceholder, if_pos rfl]

theorem ne_close_of_isDigit {ch : Char} (digit : isDigit ch = true) : ch ≠ '\x7d' := by
  rintro rfl
  cases digit

theorem ne_open_of_isDigit {ch : Char} (digit : isDigit ch = true) : ch ≠ '\x7b' := by
  rintro rfl
  cases digit

/-- A placeholder collects its digits up to the brace. -/
theorem fillPlaceholder_run (areDigits : ∀ digit ∈ run, isDigit digit = true) :
    fillPlaceholder argument digits (run ++ rest) =
      fillPlaceholder argument (digits ++ run) rest := by
  induction run generalizing digits with
  | nil => rw [List.nil_append, List.append_nil]
  | cons digit run ih =>
      have isDigit := areDigits digit List.mem_cons_self
      rw [List.cons_append, fillPlaceholder, if_neg (ne_close_of_isDigit isDigit), if_pos isDigit,
        ih fun digit mem => areDigits digit (List.mem_cons_of_mem _ mem), List.append_assoc,
        List.singleton_append]

/-- A placeholder that is filled ends with a brace after digits. -/
theorem exists_run_of_fillPlaceholder (filled : fillPlaceholder argument digits rest = .ok text) :
    ∃ run after value others, rest = run ++ '\x7d' :: after ∧
      (∀ digit ∈ run, isDigit digit = true) ∧
      placeholderText argument (digits ++ run) = .ok value ∧ fillText argument after = .ok others ∧
      text = value ++ others := by
  induction rest generalizing digits with
  | nil =>
      rw [fillPlaceholder] at filled
      cases filled
  | cons ch rest ih =>
      rw [fillPlaceholder] at filled
      split at filled
      case isTrue close =>
        obtain ⟨value, stands, filled⟩ := exists_ok_of_bind filled
        obtain ⟨others, later, filled⟩ := exists_ok_of_bind filled
        cases filled
        refine ⟨[], rest, value, others, ?_, nofun, ?_, later, rfl⟩
        · rw [close, List.nil_append]
        · rw [List.append_nil, stands]
      case isFalse =>
        split at filled
        case isTrue digit =>
          obtain ⟨run, after, value, others, rfl, areDigits, filled, later, rfl⟩ := ih filled
          refine ⟨ch :: run, after, value, others, rfl,
            List.forall_mem_cons.mpr ⟨digit, areDigits⟩, ?_, later, rfl⟩
          rwa [List.append_cons]
        case isFalse => cases filled

theorem natural?_eq_some_iff {value : Nat} :
    natural? digits = some value ↔
      digits ≠ [] ∧ (∀ digit ∈ digits, isDigit digit = true) ∧ digitsValue digits = value := by
  rw [natural?, Option.ite_none_right_eq_some, Option.some.injEq, ← and_assoc, ← List.all_eq_true,
    Bool.and_eq_true, Bool.not_eq_true', List.isEmpty_eq_false_iff]

theorem placeholderIndex_eq_ok_iff {index : Nat} :
    placeholderIndex digits = .ok index ↔ natural? digits = some index ∧ index < 2 ^ 64 := by
  unfold placeholderIndex
  cases natural? digits with
  | none => simp
  | some value =>
      simp only [Option.some.injEq]
      split
      case isTrue fits =>
        exact ⟨fun same => ⟨Except.ok.inj same, Except.ok.inj same ▸ fits⟩,
          fun given => congrArg _ given.1⟩
      case isFalse large => exact ⟨nofun, fun given => absurd (given.1 ▸ given.2) large⟩

/-- A placeholder stands for the value with its number. -/
theorem placeholderText_eq_ok_iff :
    placeholderText argument digits = .ok text ↔ ∃ index value,
      placeholderIndex digits = .ok index ∧ argument index = some value ∧ value.toList = text := by
  unfold placeholderText
  cases placeholderIndex digits with
  | error => exact ⟨nofun, nofun⟩
  | ok index =>
      dsimp only [bind, Except.bind]
      cases found : argument index with
      | none =>
          refine ⟨nofun, ?_⟩
          rintro ⟨_, _, ⟨⟩, given, -⟩
          cases found.symm.trans given
      | some value =>
          constructor
          · intro filled
            exact ⟨index, value, rfl, found, Except.ok.inj filled⟩
          · rintro ⟨_, _, ⟨⟩, given, rfl⟩
            cases found.symm.trans given
            rfl

end Placeholder

/-! ## Filling -/

section Fill

variable {argument : Nat → Option String} {ch : Char} {rest text : List Char}

theorem fillText_plain (notOpen : ch ≠ '\x7b') (notClose : ch ≠ '\x7d') :
    fillText argument (ch :: rest) = (do return ch :: (← fillText argument rest)) := by
  rw [fillText] <;> simp_all

theorem fillText_placeholder (single : ∀ after, rest ≠ '\x7b' :: after) :
    fillText argument ('\x7b' :: rest) = fillPlaceholder argument [] rest := by
  rw [fillText]
  exact single

theorem fillText_unmatched (single : ∀ after, rest ≠ '\x7d' :: after) :
    fillText argument ('\x7d' :: rest) = .error .unmatchedBrace := by
  rw [fillText]
  exact single

end Fill

section Parts

variable {values : List String}

/-- A template is filled part by part. -/
theorem fillText_parts (word : values.length ≤ 2 ^ 64) (parts : List (TemplatePart values)) :
    fillText (fun index => values[index]?) (parts.flatMap TemplatePart.spelling) =
      .ok (parts.flatMap TemplatePart.text) := by
  induction parts with
  | nil => rfl
  | cons part parts ih =>
      rw [List.flatMap_cons, List.flatMap_cons]
      cases part with
      | plain ch notOpen notClose =>
          rw [TemplatePart.spelling, List.cons_append, List.nil_append,
            fillText_plain notOpen notClose, ih]
          rfl
      | openBrace | closeBrace =>
          rw [TemplatePart.spelling, List.cons_append, List.cons_append, List.nil_append,
            fillText, ih]
          rfl
      | placeholder digits nonempty areDigits given =>
          have single (after : List Char) :
              digits ++ ['\x7d'] ++ parts.flatMap TemplatePart.spelling ≠ '\x7b' :: after := by
            obtain ⟨digit, digits, rfl⟩ := List.exists_cons_of_ne_nil nonempty
            intro same
            exact ne_open_of_isDigit (areDigits digit List.mem_cons_self) (List.cons.inj same).1
          have stands : placeholderText (fun index => values[index]?) ([] ++ digits) =
              .ok values[digitsValue digits].toList := by
            refine placeholderText_eq_ok_iff.mpr ⟨_, _, placeholderIndex_eq_ok_iff.mpr ⟨?_, ?_⟩,
              List.getElem?_eq_getElem given, rfl⟩
            · exact natural?_eq_some_iff.mpr ⟨nonempty, areDigits, rfl⟩
            · exact Nat.lt_of_lt_of_le given word
          rw [TemplatePart.spelling, List.cons_append, fillText_placeholder single,
            List.append_assoc, fillPlaceholder_run areDigits, List.singleton_append,
            fillPlaceholder_close, stands, ih]
          rfl

/-- A template that is filled consists of parts. -/
theorem isFilledWith_of_fillText {chars text : List Char}
    (filled : fillText (fun index => values[index]?) chars = .ok text) :
    IsFilledWith values chars text := by
  -- A placeholder takes any number of characters, so the induction is on the length of what is
  -- left.
  induction size : chars.length using Nat.strongRecOn generalizing chars text with
  | _ size ih =>
      subst size
      fun_cases fillText (fun index => values[index]?) chars
      case case1 =>
        cases filled
        exact ⟨[], rfl, rfl⟩
      case case2 rest =>
        obtain ⟨others, later, filled⟩ := exists_ok_of_bind filled
        cases filled
        exact (ih rest.length (by simp only [List.length_cons]; omega) later rfl).cons .openBrace
      case case3 rest =>
        obtain ⟨others, later, filled⟩ := exists_ok_of_bind filled
        cases filled
        exact (ih rest.length (by simp only [List.length_cons]; omega) later rfl).cons .closeBrace
      case case4 rest single =>
        rw [fillText_placeholder single] at filled
        obtain ⟨digits, after, value, others, rfl, areDigits, stands, later, rfl⟩ :=
          exists_run_of_fillPlaceholder filled
        obtain ⟨index, value, numbered, found, rfl⟩ := placeholderText_eq_ok_iff.mp stands
        obtain ⟨nonempty, -, rfl⟩ :=
          natural?_eq_some_iff.mp (placeholderIndex_eq_ok_iff.mp numbered).1
        obtain ⟨given, rfl⟩ := List.getElem?_eq_some_iff.mp found
        have whole := (ih after.length (by simp; omega) later rfl).cons
          (.placeholder digits nonempty areDigits given)
        rwa [TemplatePart.spelling, List.cons_append, List.append_assoc] at whole
      case case5 rest single =>
        rw [fillText_unmatched single] at filled
        cases filled
      case case6 ch rest _ _ notOpen notClose =>
        rw [fillText_plain notOpen notClose] at filled
        obtain ⟨others, later, filled⟩ := exists_ok_of_bind filled
        cases filled
        exact (ih rest.length (by simp) later rfl).cons (.plain ch notOpen notClose)

theorem fillText_eq_ok_iff (word : values.length ≤ 2 ^ 64) {chars text : List Char} :
    fillText (fun index => values[index]?) chars = .ok text ↔ IsFilledWith values chars text := by
  constructor
  · exact isFilledWith_of_fillText
  · rintro ⟨parts, rfl, rfl⟩
    exact fillText_parts word parts

end Parts

end Text

/-! ## The builtin -/

namespace Builtin

open Effect Text

theorem outcome_format (modifier modifier' : Modifier) (template : String) (values : List Atom)
    (machine : Machine) :
    outcome (format (.leaf modifier (.string template)) (.list modifier' values)) machine =
      (match fillText (fun index => (values.map (displayText machine.heap))[index]?)
        template.toList with
        | .ok text => .ok (.string (String.ofList text))
        | .error fault =>
            .error (.fault (.runtime (fault.message template values.length))), machine) := by
  have texts : (fun index : Nat => (values.map (displayText machine.heap))[index]?) =
      fun index => values[index]?.map (displayText machine.heap) := by
    funext index
    rw [List.getElem?_map]
  rw [texts]
  have text (place : ArgumentPlace) :
      place.string (.leaf modifier (.string template)) = .ok template := rfl
  have items (place : ArgumentPlace) : place.list (.list modifier' values) = .ok values := rfl
  have given {α : Type} (value : α) :
      outcome (liftM (.ok value : Except EvalError α) : EvalM α) machine =
        (.ok value, machine) := rfl
  have heap : outcome EvalM.heap machine = (.ok machine.heap, machine) := rfl
  rw [format, text, items, outcome_bind_of_ok (given template), outcome_bind_of_ok (given values),
    outcome_bind_of_ok heap, Text.fill]
  cases fillText (fun index => values[index]?.map (displayText machine.heap)) template.toList with
  | ok text => rfl
  | error fault => exact outcome_throw _ machine

/-- A template is accepted exactly when it can be cut into characters that are no braces, doubled
braces and placeholders for values that are given. Its value is then the text of these parts, and
every other template is a fault. A text with each brace doubled gives the text back. Numbers in
placeholders are read into 64 bits, which is enough for the values of any list that fits into
memory. -/
theorem format_accepts_grammar (modifier modifier' : Modifier) (template : String)
    (values : List Atom) (word : values.length ≤ 2 ^ 64) (machine : Machine) :
    let result :=
      outcome (format (.leaf modifier (.string template)) (.list modifier' values)) machine
    let texts := values.map (displayText machine.heap)
    (∀ atom, result = (.ok atom, machine) ↔
      ∃ text, IsFilledWith texts template.toList text ∧ atom = .string (String.ofList text)) ∧
    ((∃ text, IsFilledWith texts template.toList text) ∨
      ∃ fault : TemplateFault,
        result = (.error (.fault (.runtime (fault.message template values.length))), machine)) ∧
    ∀ text : String, template = String.ofList (doubleBraces text.toList) →
      result = (.ok (.string text), machine) := by
  intro result texts
  have gives : result = _ := outcome_format modifier modifier' template values machine
  have accepts (text : List Char) :
      fillText (fun index => texts[index]?) template.toList = .ok text ↔
      IsFilledWith texts template.toList text :=
    fillText_eq_ok_iff (by rwa [List.length_map])
  refine ⟨fun atom => ⟨fun succeeds => ?_, ?_⟩, ?_, ?_⟩
  · rw [succeeds] at gives
    cases filled : fillText (fun index => texts[index]?) template.toList with
    | ok text =>
        rw [filled] at gives
        cases gives
        exact ⟨text, (accepts text).mp filled, rfl⟩
    | error fault =>
        rw [filled] at gives
        cases gives
  · rintro ⟨text, isFilled, rfl⟩
    rw [gives, (accepts text).mpr isFilled]
  · cases filled : fillText (fun index => texts[index]?) template.toList with
    | ok text => exact .inl ⟨text, (accepts text).mp filled⟩
    | error fault => exact .inr ⟨fault, by rw [gives, filled]⟩
  · intro text doubled
    have isFilled : IsFilledWith texts template.toList text.toList := by
      rw [doubled, String.toList_ofList]
      exact isFilledWith_doubleBraces texts text.toList
    rw [gives, (accepts text.toList).mpr isFilled]
    simp only [String.ofList_toList]

/-- A run of braces around a number is a brace, a placeholder and a brace. Where the braces of this
template are doubled, it is the text of the result. -/
theorem format_accepts_grammar_brace_run :
    let machine := Machine.fresh none .empty .least
    [Atom.integer .one].length ≤ 2 ^ 64 ∧
    outcome (format (.string "\x7b\x7b\x7b0\x7d\x7d\x7d") (.ofList [.integer .one])) machine =
      (.ok (.string "\x7b1\x7d"), machine) ∧
    outcome (format (.string "\x7b\x7b0\x7d\x7d") (.ofList [.integer .one])) machine =
      (.ok (.string "\x7b0\x7d"), machine) := by
  intro machine
  have word : [Atom.integer .one].length ≤ 2 ^ 64 := by decide
  obtain ⟨run, -⟩ := format_accepts_grammar .plain .plain "\x7b\x7b\x7b0\x7d\x7d\x7d" _ word machine
  obtain ⟨-, -, doubled⟩ := format_accepts_grammar .plain .plain "\x7b\x7b0\x7d\x7d" _ word machine
  refine ⟨word, (run _).mpr ⟨['\x7b', '1', '\x7d'], ⟨[.openBrace, ?_, .closeBrace], ?_, ?_⟩, rfl⟩,
    doubled "\x7b0\x7d" (by decide)⟩
  · exact .placeholder ['0'] (by decide) (List.forall_mem_singleton.mpr (by decide)) (by decide)
  · decide
  · decide

end Builtin

end RecordLisp
