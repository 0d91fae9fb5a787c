import RecordLisp.Proofs.Builtin.Drawn
import RecordLisp.Proofs.Image.Function
import RecordLisp.Proofs.Source.Tokens

/-!
# Registries and their listings

The line that a listing gives for a builtin declares this builtin again. Declarations are free text:
they may hold comments, close their parenthesis early, or spell tokens that no other text is written
with. What they are read as is always a list of tokens, though, and the listing writes those tokens
with one blank between them.
-/

namespace RecordLisp

/-! ## Formals -/

theorem Param.eq_toAtom_of_ofAtom {atom : Atom} {param : Param} (read : ofAtom atom = .ok param) :
    atom = param.toAtom := by
  unfold ofAtom at read
  cases atom with
  | leaf modifier value =>
      cases value with
      | token text =>
          have spelled := tokenText_splitSigil text
          cases modifier with
          | plain =>
              cases read
              exact congrArg (Atom.leaf .plain <| .token ·) (spelled .evaluated).symm
          | quote =>
              cases read
              exact congrArg (Atom.leaf .quote <| .token ·) (spelled .quoted).symm
          | expand | evaluate => cases read
      | _ => cases read
  | list | member => cases read

theorem Param.map_toAtom_of_mapM {formals : List Atom} {params : List Param}
    (read : formals.mapM ofAtom = .ok params) : formals = params.map toAtom := by
  induction formals generalizing params with
  | nil =>
      cases read
      rfl
  | cons formal formals ih =>
      rw [List.mapM_cons] at read
      cases first : ofAtom formal with
      | error fault =>
          rw [first] at read
          cases read
      | ok param =>
          cases others : formals.mapM ofAtom with
          | error fault =>
              rw [first, others] at read
              cases read
          | ok params =>
              rw [first, others] at read
              cases read
              rw [List.map_cons, ← eq_toAtom_of_ofAtom first, ← ih others]

/-- A signature is read from the atoms that it is written as, and from no others. -/
theorem Signature.ofFormals_eq_ok_iff {formals : List Atom} {signature : Signature} :
    ofFormals formals = .ok signature ↔ formals = signature.toAtoms := by
  constructor
  · intro read
    unfold ofFormals at read
    split at read
    · cases read
    · rename_i params mapped
      split at read
      · cases read
      · cases read
        exact Param.map_toAtom_of_mapM mapped
  · rintro rfl
    exact signature.ofFormals_toAtoms

/-! ## Declarations -/

/-- A token and its modifier, which is all that an item of a declaration can be. -/
structure Word where
  modifier : Modifier
  name : String

namespace Word

def atom (word : Word) : Atom := .leaf word.modifier (.token word.name)

def tree (word : Word) : Tree := .leaf word.modifier (.token word.name)

/-- The characters that a word is written with. -/
def characters (word : Word) : List Char := word.modifier.characters ++ word.name.toList

/-- An atom that is a word was built from a tree that is this word. -/
theorem build_eq_iff {word : Word} {tree : Tree} {heap after : Heap} :
    tree.build heap = (word.atom, after) ↔ tree = word.tree ∧ after = heap := by
  constructor
  · intro built
    cases word
    cases tree with
    | leaf =>
        cases built
        exact ⟨rfl, rfl⟩
    | list | member | record =>
        rw [Tree.build] at built
        cases built
  · rintro ⟨rfl, rfl⟩
    rfl

theorem buildItems_eq_iff {words : List Word} {trees : List Tree} {heap after : Heap} :
    Tree.buildItems trees heap = (words.map atom, after) ↔
      trees = words.map tree ∧ after = heap := by
  induction words generalizing trees with
  | nil =>
      cases trees with
      | nil => simp [Tree.buildItems, eq_comm]
      | cons => simp [Tree.buildItems]
  | cons word words ih =>
      cases trees with
      | nil => simp [Tree.buildItems]
      | cons first trees =>
          rw [Tree.buildItems, List.map_cons, List.map_cons]
          constructor
          · intro built
            injection built with values heaps
            injection values with head tail
            obtain ⟨rfl, _⟩ := build_eq_iff.mp (Prod.ext head rfl)
            have others : Tree.buildItems trees heap = (words.map atom, after) :=
              Prod.ext tail heaps
            obtain ⟨rfl, rfl⟩ := ih.mp others
            exact ⟨rfl, rfl⟩
          · rintro ⟨same, rfl⟩
            cases same
            simp only [build_eq_iff.mpr ⟨rfl, rfl⟩, ih.mpr ⟨rfl, rfl⟩]

end Word

namespace Param

/-- What a formal is written as. -/
def word (param : Param) : Word := ⟨param.modifier, param.tokenText⟩

end Param

namespace Builtin

/-- The words of a declaration. -/
def words (name : String) (signature : Signature) : List Word :=
  ⟨.plain, name⟩ :: signature.params.map Param.word

theorem map_atom_words (name : String) (signature : Signature) :
    (words name signature).map Word.atom = .token name :: signature.toAtoms := by
  simp only [words, List.map_cons, List.map_map, Signature.toAtoms]
  rfl

/-- The items of a list that declares a builtin are its words. -/
theorem ofItems_eq_ok_iff {declaration name : String} {items : List Atom} {signature : Signature} :
    ofItems declaration items = .ok (name, signature) ↔
      items = (words name signature).map Word.atom := by
  rw [map_atom_words]
  constructor
  · intro accepted
    unfold ofItems at accepted
    split at accepted
    · cases accepted
    · rename_i found formals
      split at accepted
      · rename_i read
        cases accepted
        rw [Signature.ofFormals_eq_ok_iff.mp read]
      · cases accepted
    · cases accepted
  · rintro rfl
    simp only [ofItems, Signature.ofFormals_toAtoms]

/-- A declaration is accepted exactly when its text in parentheses is a list of its words. -/
theorem readDeclaration_eq_ok_iff {declaration name : String} {signature : Signature} :
    readDeclaration declaration = .ok (name, signature) ↔
      Grammar.Program ('(' :: declaration.toList ++ [')'])
        (.list .plain ((words name signature).map Word.tree)) := by
  let source := Source.anonymous ("(" ++ declaration ++ ")")
  have content : source.content.toList = '(' :: declaration.toList ++ [')'] := by
    simp [source, Source.anonymous]
  constructor
  · intro accepted
    unfold readDeclaration at accepted
    cases read : source.read .empty with
    | mk result heap =>
        rw [read] at accepted
        split at accepted
        · cases accepted
        · rename_i modifier items same
          cases same
          rw [ofItems_eq_ok_iff.mp accepted] at read
          obtain ⟨tree, isProgram, built⟩ := Source.read_eq_ok_iff.mp read
          obtain ⟨trees, rfl, builtItems⟩ := Tree.build_eq_list built
          obtain ⟨rfl, rfl⟩ := Word.buildItems_eq_iff.mp builtItems
          rw [content] at isProgram
          cases Grammar.Atom.list_unmarked isProgram
          exact isProgram
        · cases accepted
  · intro isProgram
    have built : Tree.build (.list .plain ((words name signature).map Word.tree)) .empty =
        (.list .plain ((words name signature).map Word.atom), .empty) := by
      rw [Tree.build, Word.buildItems_eq_iff.mpr ⟨rfl, rfl⟩]
    rw [← content] at isProgram
    have read : source.read .empty = _ := Source.read_of_program isProgram
    unfold readDeclaration
    rw [read, built]
    exact ofItems_eq_ok_iff.mpr rfl

/-- The words of an accepted declaration are read as what they are in any place. -/
theorem phrases_of_readDeclaration {declaration name : String} {signature : Signature}
    (accepted : readDeclaration declaration = .ok (name, signature)) :
    ∀ word ∈ words name signature,
      Grammar.Phrase word.characters word.tree ∧ Grammar.Token word.name := by
  intro word mem
  have isProgram := readDeclaration_eq_ok_iff.mp accepted
  obtain ⟨here, behind, atom⟩ := Grammar.Atom.items isProgram word.tree (List.mem_map_of_mem mem)
  exact ⟨Grammar.Atom.phrase_of_token atom, Grammar.Atom.isToken atom⟩

theorem toList_intercalate_cons (first : String) (more : List String) :
    (" ".intercalate (first :: more)).toList =
      first.toList ++ more.flatMap fun text => ' ' :: text.toList := by
  induction more generalizing first with
  | nil => simp
  | cons next more ih => simp [String.intercalate_cons_cons, ih]

/-- The characters of a builtin: its name, and its formals with a blank in front of each. -/
theorem toList_text (builtin : Builtin) :
    builtin.text.toList = builtin.name.toList ++
      builtin.signature.params.flatMap fun param => ' ' :: param.word.characters := by
  have formal (param : Param) : param.text.toList = param.word.characters := by
    rw [Param.text, String.toList_append, Modifier.toList_text]
    rfl
  rw [text, toList_intercalate_cons, List.flatMap_map]
  simp only [formal]

/-- What a builtin is written as declares it again. -/
theorem readDeclaration_text {declaration : String} {builtin : Builtin}
    (accepted : readDeclaration declaration = .ok (builtin.name, builtin.signature)) :
    readDeclaration builtin.text = .ok (builtin.name, builtin.signature) := by
  have phrases := phrases_of_readDeclaration accepted
  obtain ⟨⟨head, _⟩, others⟩ := List.forall_mem_cons.mp phrases
  have sequence : Grammar.Sequence builtin.text.toList
      ((words builtin.name builtin.signature).map Word.tree) := by
    have formals : ∀ word ∈ builtin.signature.params.map fun param =>
        (param.word.characters, param.word.tree), Grammar.Phrase word.1 word.2 := by
      intro word mem
      obtain ⟨param, isParam, rfl⟩ := List.mem_map.mp mem
      exact (others param.word (List.mem_map_of_mem isParam)).1
    have whole := Grammar.sequence_of_phrases head formals
    rw [List.flatMap_map, List.map_map] at whole
    rw [toList_text, words, List.map_cons, List.map_map]
    exact whole
  exact readDeclaration_eq_ok_iff.mpr sequence.list.program

/-- What a builtin is written as fits on a line. -/
theorem lineFeed_notMem_text {declaration : String} {builtin : Builtin}
    (accepted : readDeclaration declaration = .ok (builtin.name, builtin.signature)) :
    '\n' ∉ builtin.text.toList := by
  have solid {word : Word} (mem : word ∈ words builtin.name builtin.signature) :
      '\n' ∉ word.name.toList := by
    intro feed
    have token := (phrases_of_readDeclaration accepted word mem).2
    have ends := token.solid '\n' feed
    cases ends
  rw [toList_text]
  intro feed
  rcases List.mem_append.mp feed with inName | inFormals
  · exact solid List.mem_cons_self inName
  · obtain ⟨param, isParam, inFormal⟩ := List.mem_flatMap.mp inFormals
    rcases List.mem_cons.mp inFormal with blank | inWord
    · cases blank
    · rcases List.mem_append.mp inWord with inMark | inToken
      · cases written : param.word.modifier with
        | _ =>
            rw [written] at inMark
            revert inMark
            decide
      · exact solid (List.mem_cons_of_mem _ (List.mem_map_of_mem isParam)) inToken

end Builtin

/-- What a registry says of a builtin. -/
def Builtin.interface (builtin : Builtin) : String × Signature := (builtin.name, builtin.signature)

namespace Registry

/-! ## Listings -/

variable {registry : Registry}

/-- The lines of the listing. Each ends in a line feed, so nothing stands behind the last one. -/
def lines (registry : Registry) : List String :=
  (registry.listing.toList.splitOn '\n').dropLast.map String.ofList

/-- The names of the builtins, in order. -/
def names (registry : Registry) : List String := registry.builtins.map (·.name)

/-- What a registry says of its builtins, in order. -/
def interfaces (registry : Registry) : List (String × Signature) :=
  registry.builtins.map Builtin.interface

/-- Whether every builtin was declared by some text. -/
def Declared (registry : Registry) : Prop :=
  ∀ builtin ∈ registry.builtins, ∃ declaration,
    Builtin.readDeclaration declaration = .ok builtin.interface

/-- The lines of a listing are what the builtins are written as, in order. -/
theorem Declared.lines_eq (declared : registry.Declared) :
    registry.lines = registry.builtins.map Builtin.text := by
  have listing : registry.listing.toList.splitOn '\n' =
      registry.builtins.map (fun builtin => builtin.text.toList) ++ [[]] := by
    rw [Registry.listing, String.toList_join, List.flatMap_map]
    unfold Declared at declared
    generalize registry.builtins = builtins at declared ⊢
    induction builtins with
    | nil => rfl
    | cons builtin builtins ih =>
        obtain ⟨⟨declaration, accepted⟩, others⟩ := List.forall_mem_cons.mp declared
        have oneLine := Builtin.lineFeed_notMem_text accepted
        have feed : "\n".toList = ['\n'] := rfl
        rw [List.flatMap_cons, String.toList_append, feed, List.append_assoc,
          List.singleton_append, List.splitOn_append_cons_self_of_not_mem oneLine, ih others]
        rfl
  rw [lines, listing, List.dropLast_concat, List.map_map]
  exact List.map_congr_left fun builtin _ => String.ofList_toList

/-! ## Sequences of calls -/

/-- The builtin that a call declares. -/
def declared? (call : String × Native) : Option Builtin :=
  match Builtin.readDeclaration call.1 with
  | .ok (name, signature) => some ⟨name, signature, call.2⟩
  | .error _ => none

/-- The registry after some calls, whatever they answer. -/
def attempts (registry : Registry) (calls : List (String × Native)) : Registry :=
  calls.foldl (fun registry call => (registry.register call.1 call.2).2) registry

/-- A call adds what it declares for names that are not taken, and nothing else. -/
theorem get?_snd_register (registry : Registry) (declaration : String) (native : Native)
    (name : String) :
    (registry.register declaration native).2.get? name =
      (registry.get? name).or
        ((declared? (declaration, native)).toList.find? (·.name == name)) := by
  unfold declared?
  rcases registry.register_cases declaration native with
    ⟨added, signature, new, declares, after⟩ | ⟨taken, signature, declares, known, after⟩ |
    ⟨error, declares, after⟩
  · rw [after, declares]
    exact registry.get?_add _ new name
  · rw [after, declares]
    cases found : registry.get? name with
    | some other => rfl
    | none =>
        have different : taken ≠ name := by
          rintro rfl
          rw [found] at known
          cases known
        simp [different]
  · rw [after, declares]
    exact Option.or_none.symm

/-- Among the builtins that some calls declare, the first of its name is found. -/
theorem get?_attempts (registry : Registry) (calls : List (String × Native)) (name : String) :
    (registry.attempts calls).get? name =
      (registry.get? name).or ((calls.filterMap declared?).find? (·.name == name)) := by
  induction calls generalizing registry with
  | nil => exact Option.or_none.symm
  | cons call calls ih =>
      have others := ih (registry.register call.1 call.2).2
      rw [get?_snd_register, Option.or_assoc, ← List.find?_append] at others
      rw [attempts, List.foldl_cons]
      refine others.trans ?_
      cases declares : declared? call with
      | none => rw [List.filterMap_cons_none declares]; rfl
      | some builtin => rw [List.filterMap_cons_some declares]; rfl

/-- A call that fails changes nothing. -/
theorem snd_register_of_error {declaration : String} {native : Native} {error : SetupError}
    (failed : (registry.register declaration native).1 = .error error) :
    (registry.register declaration native).2 = registry := by
  rcases registry.register_cases declaration native with
    ⟨_, _, _, _, after⟩ | ⟨_, _, _, _, after⟩ | ⟨_, _, after⟩
  · rw [after] at failed
    cases failed
  · rw [after]
  · rw [after]

theorem Declared.register (declared : registry.Declared) (declaration : String) (native : Native) :
    (registry.register declaration native).2.Declared := by
  intro builtin mem
  rcases mem_register mem with old | ⟨_, declares⟩
  · exact declared builtin old
  · exact ⟨declaration, declares⟩

theorem Declared.attempts (declared : registry.Declared) (calls : List (String × Native)) :
    (registry.attempts calls).Declared := by
  induction calls generalizing registry with
  | nil => exact declared
  | cons call calls ih => exact ih (declared.register call.1 call.2)

theorem declared_empty : empty.Declared := List.forall_mem_nil _

/-! ## Listings as declarations -/

/-- Builtins that their texts declare are registered from these texts, each with a function of the
caller's. -/
theorem registerAll_texts {builtins : List Builtin} {natives : List Native}
    (enough : natives.length = builtins.length)
    (declare : ∀ builtin ∈ builtins,
      Builtin.readDeclaration builtin.text = .ok builtin.interface)
    (registry : Registry) (distinct : (registry.names ++ builtins.map (·.name)).Nodup) :
    ∃ after, registry.registerAll ((builtins.map Builtin.text).zip natives) = (none, after) ∧
      after.interfaces = registry.interfaces ++ builtins.map Builtin.interface := by
  induction builtins generalizing registry natives with
  | nil => exact ⟨registry, rfl, (List.append_nil _).symm⟩
  | cons builtin builtins ih =>
      cases natives with
      | nil => cases enough
      | cons native natives =>
          obtain ⟨first, others⟩ := List.forall_mem_cons.mp declare
          have absent : registry.get? builtin.name = none := by
            rw [get?_eq_none_iff, registry.coherent.find?_eq_none_iff]
            intro taken
            exact (List.disjoint_of_nodup_append distinct) taken List.mem_cons_self
          obtain ⟨middle, added, names, interfaces⟩ : ∃ middle,
              registry.register builtin.text native = (.ok (), middle) ∧
                middle.names = registry.names ++ [builtin.name] ∧
                middle.interfaces = registry.interfaces ++ [builtin.interface] := by
            rcases registry.register_cases builtin.text native with
              ⟨name, signature, new, declares, after⟩ | ⟨name, _, declares, known, _⟩ |
              ⟨_, declares, _⟩ <;> cases first.symm.trans declares
            · exact ⟨_, after, List.map_append, List.map_append⟩
            · rw [absent] at known
              cases known
          have distinctLater : (middle.names ++ builtins.map (·.name)).Nodup := by
            rw [names, List.append_assoc]
            exact distinct
          obtain ⟨after, registered, same⟩ := ih (Nat.succ.inj enough) others middle distinctLater
          refine ⟨after, ?_, ?_⟩
          · rw [List.map_cons, List.zip_cons_cons, registerAll_cons, added]
            exact registered
          · rw [same, interfaces, List.append_assoc]
            rfl

theorem listing_congr {other : Registry} (same : registry.interfaces = other.interfaces) :
    registry.listing = other.listing := by
  have written (registry : Registry) : registry.listing =
      String.join (registry.interfaces.map fun interface =>
        " ".intercalate (interface.1 :: interface.2.params.map Param.text) ++ "\n") := by
    rw [interfaces, List.map_map]
    rfl
  rw [written registry, written other, same]

/-- After any calls on an empty registry the names are distinct, a name is looked up as the first
declaration of it that was made, and a call that fails changes nothing. The lines of the listing are
declarations of the same builtins in the same order, whatever functions come with them. -/
theorem listing_declares_registry (calls : List (String × Native)) :
    let registry := empty.attempts calls
    registry.names.Nodup ∧
    (∀ name, registry.get? name = (calls.filterMap declared?).find? (·.name == name)) ∧
    (∀ declaration native error after,
      registry.register declaration native = (.error error, after) → after = registry) ∧
    ∀ natives : List Native, natives.length = registry.lines.length →
      ∃ again, empty.registerAll (registry.lines.zip natives) = (none, again) ∧
        again.interfaces = registry.interfaces ∧ again.listing = registry.listing := by
  intro registry
  have declared : registry.Declared := declared_empty.attempts calls
  refine ⟨registry.coherent.nodup, fun name => ?_, ?_, fun natives enough => ?_⟩
  · exact get?_attempts empty calls name
  · intro declaration native error after failed
    have unchanged := snd_register_of_error (congrArg Prod.fst failed)
    rwa [failed] at unchanged
  · rw [declared.lines_eq] at enough ⊢
    have declare : ∀ builtin ∈ registry.builtins,
        Builtin.readDeclaration builtin.text = .ok builtin.interface := by
      intro builtin mem
      obtain ⟨declaration, accepted⟩ := declared builtin mem
      exact Builtin.readDeclaration_text accepted
    rw [List.length_map] at enough
    obtain ⟨again, registered, same⟩ :=
      registerAll_texts enough declare empty registry.coherent.nodup
    exact ⟨again, registered, same, listing_congr same⟩

/-- A declaration with a comment, one that does not declare, one that closes its parenthesis itself,
one whose name is taken, and one with odd tokens behind its marks. -/
theorem listing_declares_registry_comments :
    let calls : List (String × Native) :=
      [("fold 'x *xs ; all\n", Native.pureUnary .ok), ("bad $x", Native.pureUnary .ok),
        ("f) ; (y", Native.pureUnary .ok), ("f y", Native.pureUnary .ok),
        ("g ';x ''+y", Native.pureUnary .ok)]
    let registry := empty.attempts calls
    registry.lines = ["fold 'x *xs", "f", "g ';x ''+y"] ∧
    registry.register "f y" (Native.pureUnary .ok) = (.error (.duplicate "f"), registry) ∧
    ∃ again, empty.registerAll (registry.lines.zip (List.replicate 3 (Native.pureUnary .ok))) =
      (none, again) ∧ again.interfaces = registry.interfaces ∧
        again.listing = registry.listing := by
  intro calls registry
  have lines : registry.lines = ["fold 'x *xs", "f", "g ';x ''+y"] := by decide +kernel
  obtain ⟨_, _, unchanged, again⟩ := listing_declares_registry calls
  refine ⟨lines, ?_, again _ (by rw [lines]; rfl)⟩
  have fails : (registry.register "f y" (Native.pureUnary .ok)).1 = .error (.duplicate "f") := by
    decide +kernel
  have same := unchanged _ _ _ _ (Prod.ext fails rfl)
  exact Prod.ext fails same

end Registry

end RecordLisp
