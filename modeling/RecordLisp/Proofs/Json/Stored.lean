import RecordLisp.Config
import RecordLisp.Error.Json
import RecordLisp.Proofs.Json.Written

/-!
# Stored errors and settings

Errors and settings that were stored as JSON are read back as they were. The members of a stored
error may stand in any order and among members that no error has; only its kind and its detail have
to stand there once.
-/

namespace RecordLisp

/-! ## Members of written objects -/

namespace Json

theorem members?_written (members : List (String × String)) :
    (object (members.map memberDocument)).members? =
      some (members.map fun member => (member.1, (read member.2).getD .null)) := by
  rw [members?, List.mapM_map]
  induction members with
  | nil => rfl
  | cons member members ih =>
      rw [List.mapM_cons, ih]
      rfl

theorem requiredMember?_written {members : List (String × String)} {name text : String}
    {document : Json} (once : members.filter (·.1 == name) = [(name, text)])
    (isDocument : read text = some document) :
    requiredMember? (members.map fun member => (member.1, (read member.2).getD .null)) name =
      some document := by
  have found :
      (members.map fun member => (member.1, (read member.2).getD .null)).filter (·.1 == name) =
      [(name, document)] := by
    rw [List.filter_map]
    change (members.filter (·.1 == name)).map _ = _
    rw [once, List.map_singleton, isDocument, Option.getD_some]
  rw [requiredMember?, uniqueMember?, found]

theorem natural?_ofNat {n bound : Nat} (below : n < bound) :
    (number (.ofNat n)).natural? bound = some n :=
  if_pos (decide_eq_true below)

/-- A number of 64 bits stays finite. -/
theorem isFinite_ofNat {n : Nat} (word : n < 2 ^ 64) : (JsonNumber.ofNat n).isFinite = true := by
  have digits : n.repr.length ≤ 20 := by
    rw [← String.length_toList, Nat.toList_repr]
    exact (Nat.length_toDigits_le_iff (by decide) (by decide)).mpr (by omega)
  have small : (n.repr.length : Int) + 0 ≤ 308 := by omega
  exact if_pos (by simpa using .inr small)

end Json

/-! ## Parse errors -/

namespace ParseError

/-- Whether the offset of an error fits into the word that it is stored in. -/
def FitsWords (error : ParseError) : Prop := error.position.offset < 2 ^ 64

/-- The document of a stored error. -/
def document (error : ParseError) : Json :=
  .object
    [(some "file", .string (some error.file)),
     (some "message", .string (some error.message)),
     (some "offset", .number (.ofNat error.position.offset)),
     (some "line", .number (.ofNat error.position.line.toNat)),
     (some "column", .number (.ofNat error.position.column.toNat)),
     (some "source_line", .string (some error.sourceLine))]

theorem read_toJson (error : ParseError) : Json.read error.toJson = some error.document := by
  rw [toJson, Json.read_writeObject]
  · simp only [List.map_cons, List.map_nil, Json.memberDocument, Json.read_writeText,
      Json.read_writeNatural, Option.getD_some]
    rfl
  · simp [Json.read_writeText, Json.read_writeNatural]

variable {error : ParseError}

theorem ofJson?_document (fits : error.FitsWords) : ofJson? error.document = some error := by
  change (((Json.number (.ofNat error.position.offset)).natural? (2 ^ 64)).bind fun offset =>
    ((Json.number (.ofNat error.position.line.toNat)).natural? (2 ^ 32)).bind fun line =>
    ((Json.number (.ofNat error.position.column.toNat)).natural? (2 ^ 32)).bind fun column =>
      some ⟨error.file, error.message, ⟨offset, .ofNat line, .ofNat column⟩, error.sourceLine⟩) =
    some error
  rw [Json.natural?_ofNat fits, Option.bind_some, Json.natural?_ofNat error.position.line.toNat_lt,
    Option.bind_some, Json.natural?_ofNat error.position.column.toNat_lt, Option.bind_some,
    UInt32.ofNat_toNat, UInt32.ofNat_toNat]

theorem isStrict_document (fits : error.FitsWords) {depth : Nat} (positive : 0 < depth) :
    error.document.isStrict depth = true := by
  have finite (count : UInt32) := Json.isFinite_ofNat (Nat.lt_trans count.toNat_lt (by decide))
  simp [document, Json.isStrict, Json.membersAreStrict, positive, Json.isFinite_ofNat fits, finite]

end ParseError

/-! ## Evaluation errors -/

namespace EvalError

/-- Whether an error fits into the words that it is stored in. -/
def FitsWords : EvalError → Prop
  | .parse error => error.FitsWords
  | _ => True

/-- The document of the detail of a stored error. -/
def detailDocument : EvalError → Json
  | .undefinedVariable text | .unknownFunction text | .typeMismatch text | .arity text
  | .missingMember text | .arithmeticTrap text | .io text | .runtime text => .string (some text)
  | .parse error => error.document
  | .gasExhausted limit => .number (.ofNat limit.toNat)

theorem read_detailJson (error : EvalError) :
    Json.read error.detailJson = some error.detailDocument := by
  cases error with
  | parse error => exact error.read_toJson
  | gasExhausted limit => exact Json.read_writeNatural limit.toNat
  | _ => exact Json.read_writeText _

variable {error : EvalError}

theorem isStrict_detailDocument (fits : error.FitsWords) :
    error.detailDocument.isStrict detailDepth = true := by
  cases error with
  | parse error => exact ParseError.isStrict_document fits (by decide)
  | gasExhausted limit => exact Json.isFinite_ofNat limit.toNat_lt
  | _ => rfl

theorem ofDetail?_detailDocument (fits : error.FitsWords) :
    ofDetail? error.kind error.detailDocument = some error := by
  cases error with
  | parse error => exact congrArg (Option.map parse) (ParseError.ofJson?_document fits)
  | gasExhausted limit =>
      have word := Json.natural?_ofNat limit.toNat_lt
      exact (congrArg (Option.map _) word).trans
        (congrArg (some ∘ gasExhausted) (UInt64.ofNat_toNat ..))
  | _ => rfl

/-- Whether members, in any order, are those of a stored error: one is its kind, one is its detail,
and all others have names and documents of their own. -/
structure StoredAs (error : EvalError) (members : List (String × String)) : Prop where
  kind : members.filter (·.1 == "kind") = [("kind", Json.writeText error.kind)]
  detail : members.filter (·.1 == "detail") = [("detail", error.detailJson)]
  others : ∀ member ∈ members, member.1 ≠ "kind" → member.1 ≠ "detail" →
    (Json.read member.2).isSome = true

theorem storedAs_toJson (error : EvalError) :
    error.StoredAs [("kind", Json.writeText error.kind), ("detail", error.detailJson)] where
  kind := rfl
  detail := rfl
  others := by
    intro member mem notKind notDetail
    rw [List.mem_cons, List.mem_singleton] at mem
    obtain rfl | rfl := mem
    · exact absurd rfl notKind
    · exact absurd rfl notDetail

theorem StoredAs.documents {members : List (String × String)} (stored : error.StoredAs members) :
    ∀ member ∈ members, (Json.read member.2).isSome = true := by
  intro member mem
  by_cases isKind : member.1 = "kind"
  · have among : member ∈ members.filter (·.1 == "kind") :=
      List.mem_filter.mpr ⟨mem, beq_iff_eq.mpr isKind⟩
    rw [stored.kind] at among
    rw [List.mem_singleton.mp among, Json.read_writeText, Option.isSome_some]
  · by_cases isDetail : member.1 = "detail"
    · have among : member ∈ members.filter (·.1 == "detail") :=
        List.mem_filter.mpr ⟨mem, beq_iff_eq.mpr isDetail⟩
      rw [stored.detail] at among
      rw [List.mem_singleton.mp among, read_detailJson, Option.isSome_some]
    · exact stored.others member mem isKind isDetail

theorem ofJson?_writeObject (fits : error.FitsWords) {members : List (String × String)}
    (stored : error.StoredAs members) : ofJson? (Json.writeObject members) = some error := by
  rw [ofJson?, Json.read_writeObject stored.documents, Option.bind_some]
  change (Json.members? _).bind (fun members => (requiredMember? members "kind").bind fun kind =>
    (requiredMember? members "detail").bind fun detail => ofParts? kind detail) = some error
  rw [Json.members?_written, Option.bind_some,
    Json.requiredMember?_written stored.kind (Json.read_writeText error.kind), Option.bind_some,
    Json.requiredMember?_written stored.detail error.read_detailJson, Option.bind_some]
  change (if error.detailDocument.isStrict detailDepth
    then ofDetail? error.kind error.detailDocument else none) = some error
  rw [if_pos (isStrict_detailDocument fits), ofDetail?_detailDocument fits]

end EvalError

/-! ## Settings -/

namespace Config

/-- The document of a stored limit. -/
def limitDocument (limit : Option UInt64) : Json :=
  (limit.map fun limit => .number (.ofNat limit.toNat)).getD .null

/-- The document of a stored name. -/
def bindingDocument (binding : Option String) : Json :=
  (binding.map fun name => .string (some name)).getD .null

theorem readLimit_limitDocument (limit : Option UInt64) :
    readLimit (limitDocument limit) = .ok limit := by
  cases limit with
  | none => rfl
  | some limit =>
      have word := Json.natural?_ofNat limit.toNat_lt
      simp only [limitDocument, Option.map_some, Option.getD_some, readLimit, word,
        UInt64.ofNat_toNat]

theorem readBinding_bindingDocument (binding : Option String) :
    readBinding (bindingDocument binding) = .ok binding := by
  cases binding <;> rfl

theorem ofJson?_toJson (config : Config) : ofJson? config.toJson = some config := by
  have limit :
      Json.read (Json.writeOption (fun limit => Json.writeNatural limit.toNat) config.gasLimit) =
      some (limitDocument config.gasLimit) :=
    Json.read_writeOption (fun limit : UInt64 => Json.read_writeNatural limit.toNat) config.gasLimit
  have binding : Json.read (Json.writeOption Json.writeText config.selfBinding) =
      some (bindingDocument config.selfBinding) :=
    Json.read_writeOption Json.read_writeText config.selfBinding
  have documents : Json.read config.toJson = some (.object
      [(some "gas_limit", limitDocument config.gasLimit),
       (some "self_binding", bindingDocument config.selfBinding)]) := by
    rw [toJson, Json.read_writeObject]
    · simp only [List.map_cons, List.map_nil, Json.memberDocument, limit, binding, Option.getD_some]
    · simp [limit, binding]
  rw [ofJson?, documents, Option.bind_some]
  change ((readLimit (limitDocument config.gasLimit)).bind fun gasLimit =>
    (readBinding (bindingDocument config.selfBinding)).bind fun selfBinding =>
      Except.ok (Config.mk gasLimit selfBinding)).toOption = some config
  rw [readLimit_limitDocument, readBinding_bindingDocument]
  rfl

end Config

/-- An error that was stored is read back, whatever its kind and the text of its detail are and
whether its members are in order, in another order or among members of other names. Settings that
were stored are read back. -/
theorem stored_json_reads_back :
    (∀ error : EvalError, error.FitsWords → EvalError.ofJson? error.toJson = some error ∧
      ∀ members, error.StoredAs members →
        EvalError.ofJson? (Json.writeObject members) = some error) ∧
    ∀ config : Config, Config.ofJson? config.toJson = some config := by
  refine ⟨fun error fits => ⟨?_, fun members stored => ?_⟩, Config.ofJson?_toJson⟩
  · exact EvalError.ofJson?_writeObject fits error.storedAs_toJson
  · exact EvalError.ofJson?_writeObject fits stored

/-- A parse error at the greatest place, with a control character, a quote and a character of two
units in its message. Its detail stands before its kind, among two members of one other name, which
hold a number that is not finite and half of a surrogate pair. -/
theorem stored_json_reads_back_unknown_members :
    let error : EvalError :=
      .parse ⟨"a", "\x01\"\\😀", ⟨18446744073709551615, 4294967295, 4294967295⟩, "é"⟩
    let members : List (String × String) :=
      [("note", " [1e400, \x7b\"kind\": null\x7d] "), ("detail", error.detailJson),
       ("note", "\"\\ud800\""), ("kind", Json.writeText error.kind)]
    error.FitsWords ∧ error.StoredAs members ∧
    EvalError.ofJson? (Json.writeObject members) = some error := by
  intro error members
  have fits : error.FitsWords := Nat.lt_succ_self 18446744073709551615
  have stored : error.StoredAs members :=
    { kind := rfl
      detail := rfl
      others := by
        intro member mem notKind notDetail
        simp only [members, List.mem_cons, List.not_mem_nil, or_false] at mem
        obtain rfl | rfl | rfl | rfl := mem
        · rfl
        · exact absurd rfl notDetail
        · rfl
        · exact absurd rfl notKind }
  exact ⟨fits, stored, (stored_json_reads_back.1 error fits).2 members stored⟩

end RecordLisp
