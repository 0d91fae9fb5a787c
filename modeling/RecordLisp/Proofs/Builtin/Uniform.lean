import RecordLisp.Proofs.Builtin.Drawn
import RecordLisp.Proofs.Builtin.Values
import RecordLisp.Proofs.Eval.Uniform
import RecordLisp.Proofs.Image.Matching
import RecordLisp.Proofs.Source.Uniform

/-!
# Builtins do not depend on handles

Every builtin of the core and of the standard packs does the same to matching arguments, given
evaluators that do. A builtin may follow a handle, compare two handles for being the same, or make a
new object; it never shows the number of a handle. The two that turn objects into text print names
and places in the graph instead.
-/

namespace RecordLisp

open Effect EvalM

variable {pairing : Pairing}

/-! ## Actions without parts -/

namespace EvalM

variable {α β : Type} {values : Correspondence α}

theorem simulates_liftM {result other : Except EvalError α}
    (related : ResultRel (values.relates pairing) result other) :
    Simulates values pairing (liftM result) (liftM other) := by
  cases related with
  | error error => exact simulates_throw _
  | ok related => exact simulates_pure related

/-- After a look at two parts of the machine. -/
theorem Simulates.read_both {β γ δ : Type} {results : Correspondence β} {action : EvalM γ}
    {action' : EvalM δ} {view : Machine → γ} {view' : Machine → δ} (reads : Reads action view)
    (reads' : Reads action' view') {next next' : γ → δ → EvalM β}
    (goesOn : ∀ later, pairing.Within later →
      ∀ machine machine', Machine.Match later machine machine' →
      Simulates results later (next (view machine) (view' machine))
        (next' (view machine') (view' machine'))) :
    Simulates results pairing (action >>= fun first => action' >>= next first)
      (action >>= fun first => action' >>= next' first) := by
  intro later within machine machine' matched
  rw [outcome_bind_of_ok (reads machine), outcome_bind_of_ok (reads machine'),
    outcome_bind_of_ok (reads' machine), outcome_bind_of_ok (reads' machine')]
  exact goesOn later within machine machine' matched later (.refl later) machine machine' matched

/-- Machines that match draw the same integers. -/
theorem simulates_draw (least bound : Integer) :
    Simulates (.same Integer) pairing (draw least bound) (draw least bound) := by
  intro later _ machine machine' matched
  unfold draw
  have same : machine.random.draw machine.drawn least bound =
      machine'.random.draw machine'.drawn least bound := by
    rw [matched.random, matched.drawn]
  rw [outcome_modifyGet, outcome_modifyGet]
  exact ⟨later, .refl later, { matched with drawn := congrArg (· + 1) matched.drawn }, .ok same⟩

end EvalM

/-! ## Numbers of arguments -/

namespace Native

theorem alike_unary {work : Evaluator → Atom → EvalM Atom}
    (works : ∀ {evaluator copy : Evaluator}, evaluator.Alike copy →
      ∀ {pairing : Pairing} {a a' : Atom},
      a.Match pairing a' → Simulates .atom pairing (work evaluator a) (work copy a')) :
    (unary work).Alike (unary work) := by
  intro evaluator copy alike pairing arguments others same
  match same with
  | .cons first .nil => exact works alike first
  | .nil | .cons _ (.cons _ _) => exact simulates_fail _

theorem alike_binary {work : Evaluator → Atom → Atom → EvalM Atom}
    (works : ∀ {evaluator copy : Evaluator}, evaluator.Alike copy →
      ∀ {pairing : Pairing} {a a' b b' : Atom}, a.Match pairing a' → b.Match pairing b' →
        Simulates .atom pairing (work evaluator a b) (work copy a' b')) :
    (binary work).Alike (binary work) := by
  intro evaluator copy alike pairing arguments others same
  match same with
  | .cons first (.cons second .nil) => exact works alike first second
  | .nil | .cons _ .nil | .cons _ (.cons _ (.cons _ _)) => exact simulates_fail _

theorem alike_ternary {work : Evaluator → Atom → Atom → Atom → EvalM Atom}
    (works : ∀ {evaluator copy : Evaluator}, evaluator.Alike copy →
      ∀ {pairing : Pairing} {a a' b b' c c' : Atom}, a.Match pairing a' → b.Match pairing b' →
        c.Match pairing c' → Simulates .atom pairing (work evaluator a b c) (work copy a' b' c')) :
    (ternary work).Alike (ternary work) := by
  intro evaluator copy alike pairing arguments others same
  match same with
  | .cons first (.cons second (.cons third .nil)) => exact works alike first second third
  | .nil | .cons _ .nil | .cons _ (.cons _ .nil) | .cons _ (.cons _ (.cons _ (.cons _ _))) =>
      exact simulates_fail _

theorem alike_quaternary {work : Evaluator → Atom → Atom → Atom → Atom → EvalM Atom}
    (works : ∀ {evaluator copy : Evaluator}, evaluator.Alike copy →
      ∀ {pairing : Pairing} {a a' b b' c c' d d' : Atom}, a.Match pairing a' → b.Match pairing b' →
        c.Match pairing c' → d.Match pairing d' →
          Simulates .atom pairing (work evaluator a b c d) (work copy a' b' c' d')) :
    (quaternary work).Alike (quaternary work) := by
  intro evaluator copy alike pairing arguments others same
  match arguments, others, same with
  | [_, _, _, _], _, .cons first (.cons second (.cons third (.cons fourth .nil))) =>
      exact works alike first second third fourth
  | [], _, .nil | [_], _, .cons _ .nil | [_, _], _, .cons _ (.cons _ .nil)
  | [_, _, _], _, .cons _ (.cons _ (.cons _ .nil))
  | _ :: _ :: _ :: _ :: _ :: _, _, .cons _ (.cons _ (.cons _ (.cons _ (.cons _ _)))) =>
      exact simulates_fail _

theorem alike_quinary {work : Evaluator → Atom → Atom → Atom → Atom → Atom → EvalM Atom}
    (works : ∀ {evaluator copy : Evaluator}, evaluator.Alike copy →
      ∀ {pairing : Pairing} {a a' b b' c c' d d' e e' : Atom}, a.Match pairing a' →
        b.Match pairing b' → c.Match pairing c' → d.Match pairing d' → e.Match pairing e' →
          Simulates .atom pairing (work evaluator a b c d e) (work copy a' b' c' d' e')) :
    (quinary work).Alike (quinary work) := by
  intro evaluator copy alike pairing arguments others same
  cases same with
  | nil => exact simulates_fail _
  | @cons _ _ arguments others first rest =>
      match arguments, others, rest with
      | [_, _, _, _], _, .cons second (.cons third (.cons fourth (.cons fifth .nil))) =>
          exact works alike first second third fourth fifth
      | [], _, .nil | [_], _, .cons _ .nil | [_, _], _, .cons _ (.cons _ .nil)
      | [_, _, _], _, .cons _ (.cons _ (.cons _ .nil))
      | _ :: _ :: _ :: _ :: _ :: _, _, .cons _ (.cons _ (.cons _ (.cons _ (.cons _ _)))) =>
          exact simulates_fail _

theorem alike_pureUnary {work : Atom → Except EvalError Atom}
    (works : ∀ {pairing : Pairing} {a a' : Atom}, a.Match pairing a' →
      ResultRel (Atom.Match pairing) (work a) (work a')) :
    (pureUnary work).Alike (pureUnary work) :=
  alike_unary fun _ _ _ _ same => simulates_liftM (works same)

theorem alike_pureBinary {work : Atom → Atom → Except EvalError Atom}
    (works : ∀ {pairing : Pairing} {a a' b b' : Atom}, a.Match pairing a' → b.Match pairing b' →
      ResultRel (Atom.Match pairing) (work a b) (work a' b')) :
    (pureBinary work).Alike (pureBinary work) :=
  alike_binary fun _ _ _ _ _ _ first second => simulates_liftM (works first second)

theorem alike_pureTernary {work : Atom → Atom → Atom → Except EvalError Atom}
    (works : ∀ {pairing : Pairing} {a a' b b' c c' : Atom}, a.Match pairing a' →
      b.Match pairing b' → c.Match pairing c' →
      ResultRel (Atom.Match pairing) (work a b c) (work a' b' c')) :
    (pureTernary work).Alike (pureTernary work) :=
  alike_ternary fun _ _ _ _ _ _ _ _ first second third => simulates_liftM (works first second third)

end Native

/-! ## Bindings -/

/-- Two pairs or more are not taken for a list of pairs. -/
theorem groupedPairs_of_two (first second : Atom) (rest : List Atom) :
    groupedPairs (first :: second :: rest) = first :: second :: rest := by
  cases first <;> rfl

theorem match_groupedPairs {items others : List Atom}
    (all : List.Forall₂ (Atom.Match pairing) items others) :
    List.Forall₂ (Atom.Match pairing) (groupedPairs items) (groupedPairs others) := by
  cases all with
  | nil => exact .nil
  | cons first rest =>
      cases rest with
      | cons second rest =>
          rw [groupedPairs_of_two, groupedPairs_of_two]
          exact .cons first (.cons second rest)
      | nil =>
          cases first with
          | leaf value => exact .cons (.leaf value) .nil
          | member target field => exact .cons (.member target field) .nil
          | list inner =>
              cases inner with
              | nil => exact .nil
              | cons head rest =>
                  cases head with
                  | list items => exact .cons (.list items) rest
                  | leaf value => exact .cons (.list (.cons (.leaf value) rest)) .nil
                  | member target field =>
                      exact .cons (.list (.cons (.member target field) rest)) .nil

theorem match_bindingPair (function : String) (position : Nat) {pair pair' : Atom}
    (same : pair.Match pairing pair') :
    ResultRel ((Correspondence.prod (.same String) .atom).relates pairing)
      (bindingPair function position pair) (bindingPair function position pair') := by
  unfold bindingPair
  have items := same.list?
  rw [same.typeName_eq]
  generalize pair.list? = items, pair'.list? = items' at items
  cases items with
  | none => exact .error _
  | some items =>
      match items with
      | .nil | .cons _ .nil | .cons _ (.cons _ (.cons _ _)) => exact .error _
      | .cons name (.cons value .nil) =>
          dsimp only
          rw [name.name?_eq, name.typeName_eq]
          split
          · exact .ok ⟨rfl, value⟩
          · exact .error _

theorem match_bindingPairs (function : String) {items others : List Atom}
    (all : List.Forall₂ (Atom.Match pairing) items others) :
    ResultRel (Fields.Match pairing) (bindingPairs function items)
      (bindingPairs function others) := by
  unfold bindingPairs
  have grouped := match_groupedPairs all
  generalize groupedPairs items = pairs, groupedPairs others = pairs', 1 = position at grouped
  induction grouped generalizing position with
  | nil => exact .ok .nil
  | cons first _ ih =>
      refine (match_bindingPair function position first).bind fun _ _ binding => ?_
      refine (ih (position + 1)).bind fun _ _ bindings => .ok ?_
      exact .cons binding bindings

/-! ## Formals -/

theorem Param.ofAtom_eq {formal other : Atom} (same : formal.Match pairing other) :
    Param.ofAtom formal = Param.ofAtom other := by
  unfold Param.ofAtom
  rw [same.token?_eq, same.typeName_eq, same.modifier_eq]

theorem Signature.ofFormals_eq {formals others : List Atom}
    (all : List.Forall₂ (Atom.Match pairing) formals others) :
    Signature.ofFormals formals = Signature.ofFormals others := by
  have same : formals.mapM Param.ofAtom = others.mapM Param.ofAtom := by
    induction all with
    | nil => rfl
    | cons first _ ih => rw [List.mapM_cons, List.mapM_cons, Param.ofAtom_eq first, ih]
  unfold Signature.ofFormals
  split
  · split <;> simp_all
  · rename_i params read
    rw [same] at read
    have unique {params' : List Param} (read' : others.mapM Param.ofAtom = .ok params') :
        params' = params := Except.ok.inj (read'.symm.trans read)
    split
    · split
      · simp_all
      · rename_i read'
        cases unique read'
        split <;> simp_all
    · split
      · simp_all
      · rename_i read'
        cases unique read'
        split <;> simp_all

namespace Builtin

/-! ## Code -/

/-- Parse errors, or matching atoms. -/
def readResult : Correspondence (Except ParseError Atom) where
  relates pairing := ResultRel (Atom.Match pairing)
  mono within related := related.imp fun _ _ same => same.mono within

theorem simulates_parse {a b : Atom} (same : a.Match pairing b) :
    Simulates .atom pairing (parse a) (parse b) := by
  refine simulates_lift (ArgumentPlace.match_string _ same) fun text text' equal => ?_
  subst equal
  have reads : Simulates readResult pairing
      (onHeap fun heap => (Source.anonymous text).read heap)
      (onHeap fun heap => (Source.anonymous text).read heap) :=
    simulates_onHeap fun _ _ _ _ matched => by
      obtain ⟨last, grows, after, related⟩ := matched.read (.anonymous text)
      exact ⟨last, grows, related, after⟩
  refine reads.bind fun later within result result' related => ?_
  cases related with
  | error error => exact simulates_fail _
  | ok same => exact simulates_pure same

theorem simulates_random {a a' b b' : Atom} (first : a.Match pairing a')
    (second : b.Match pairing b') :
    Simulates .atom pairing (random a b) (random a' b') := by
  refine simulates_lift (ArgumentPlace.match_integer _ first) fun least least' equal => ?_
  refine simulates_lift (ArgumentPlace.match_integer _ second) fun bound bound' equal' => ?_
  subst equal equal'
  split
  · exact simulates_fail _
  · split
    · exact simulates_pure (Atom.match_leaf rfl)
    · have draws : Simulates (.same Integer) pairing _ _ := simulates_draw least bound
      refine draws.map fun _ _ offset offset' equal => ?_
      cases equal
      exact Atom.match_leaf rfl

/-! ## Choice and repetition -/

section Control

variable {evaluator copy : Evaluator} (alike : evaluator.Alike copy)
include alike

theorem simulates_choose {condition condition' yes yes' no no' : Atom}
    (conditions : condition.Match pairing condition') (yesSame : yes.Match pairing yes')
    (noSame : no.Match pairing no') :
    Simulates .atom pairing (choose evaluator condition yes no)
      (choose copy condition' yes' no') := by
  unfold choose
  rw [conditions.isTrue_eq]
  split
  · exact alike.eval yesSame
  · exact alike.eval noSame

theorem simulates_selectFrom (position : Nat) {branches others : List Atom}
    (all : List.Forall₂ (Atom.Match pairing) branches others) :
    Simulates .atom pairing (selectFrom evaluator position branches)
      (selectFrom copy position others) := by
  induction branches generalizing pairing position others with
  | nil =>
      cases all
      exact simulates_pure (Atom.match_leaf rfl)
  | cons branch branches ih =>
      cases all with
      | @cons _ branch' _ others first rest =>
          rw [selectFrom, selectFrom]
          have items := first.list?
          generalize branch.list? = items, branch'.list? = items' at items
          cases items with
          | none => exact simulates_fail _
          | some items =>
              match items with
              | .nil | .cons _ .nil | .cons _ (.cons _ (.cons _ _)) => exact simulates_fail _
              | .cons condition (.cons body .nil) =>
                  refine (alike.eval condition).bind fun later within holds holds' same => ?_
                  rw [Atom.Match.isTrue_eq same]
                  split
                  · exact alike.eval (body.mono within)
                  · exact ih (position + 1) (Atom.matchAll_mono within rest)

theorem simulates_select {branches others : Atom} (same : branches.Match pairing others) :
    Simulates .atom pairing (select evaluator branches) (select copy others) :=
  simulates_lift (ArgumentPlace.match_list _ same) fun _ _ => simulates_selectFrom alike 1

theorem simulates_whileLoop {condition condition' body body' : Atom}
    (conditions : condition.Match pairing condition') (bodies : body.Match pairing body')
    (rounds : Nat) :
    Simulates .atom pairing (whileLoop evaluator condition body rounds)
      (whileLoop copy condition' body' rounds) := by
  induction rounds generalizing pairing with
  | zero => exact simulates_throw _
  | succ rounds ih =>
      refine (alike.eval conditions).bind fun later within holds holds' same => ?_
      rw [Atom.Match.isTrue_eq same]
      split
      · refine (alike.eval (bodies.mono within)).bind fun last grows _ _ _ => ?_
        exact ih (conditions.mono (within.trans grows)) (bodies.mono (within.trans grows))
      · exact simulates_pure (Atom.match_leaf rfl)

theorem simulates_repeatWhile {condition condition' body body' : Atom}
    (conditions : condition.Match pairing condition') (bodies : body.Match pairing body') :
    Simulates .atom pairing (repeatWhile evaluator condition body)
      (repeatWhile copy condition' body') := by
  unfold repeatWhile
  rw [alike.rounds]
  exact simulates_whileLoop alike conditions bodies copy.rounds

end Control

/-! ## Text -/

theorem displayText_eq {heap other : Heap} (matched : heap.Match pairing other)
    {value value' : Atom}
    (same : value.Match pairing value') : displayText heap value = displayText other value' := by
  unfold displayText
  rw [same.string?_eq, matched.parallel.print_eq same]

theorem argumentTexts_eq {heap other : Heap} (matched : heap.Match pairing other)
    {values values' : List Atom} (all : List.Forall₂ (Atom.Match pairing) values values') :
    (fun index : Nat => values[index]?.map (displayText heap)) =
      fun index => values'[index]?.map (displayText other) := by
  funext index
  have found := optionRel_getElem? all index
  generalize values[index]? = value, values'[index]? = value' at found
  cases found with
  | none => rw [Option.map_none, Option.map_none]
  | some same => rw [Option.map_some, Option.map_some, displayText_eq matched same]

theorem simulates_format {template template' items items' : Atom}
    (templates : template.Match pairing template') (lists : items.Match pairing items') :
    Simulates .atom pairing (format template items) (format template' items') := by
  unfold format
  refine simulates_lift (ArgumentPlace.match_string _ templates) fun template template' equal => ?_
  subst equal
  refine simulates_lift (ArgumentPlace.match_list _ lists) fun values values' all => ?_
  refine Simulates.read reads_heap fun later within machine machine' matched => ?_
  rw [argumentTexts_eq matched.heap (Atom.matchAll_mono within all), all.length_eq]
  generalize Text.fill template _ = filled
  cases filled with
  | ok text => exact simulates_pure (Atom.match_leaf rfl)
  | error fault => exact simulates_fail _

/-! ## Functions and scopes -/

theorem simulates_makeFunction {formals formals' body body' : Atom}
    (formalsSame : formals.Match pairing formals') (bodies : body.Match pairing body') :
    Simulates .atom pairing (makeFunction formals body) (makeFunction formals' body') := by
  refine simulates_lift (ArgumentPlace.match_list _ formalsSame) fun formals formals' all => ?_
  rw [Signature.ofFormals_eq all]
  split
  · exact simulates_fail _
  · rename_i signature _
    refine Simulates.read reads_scope fun later within machine machine' matched => ?_
    have same : (Closure.mk signature body machine.scope).Match later
        ⟨signature, body', machine'.scope⟩ := ⟨rfl, bodies.mono within, matched.scope⟩
    exact (simulates_allocClosure same).map fun _ _ _ _ paired => .leaf (.function paired)

theorem simulates_setScope {function function' scope scope' : Atom}
    (functions : function.Match pairing function') (scopes : scope.Match pairing scope') :
    Simulates .atom pairing (setScope function scope) (setScope function' scope') := by
  refine simulates_lift (ArgumentPlace.match_functionId _ functions) fun id image paired => ?_
  refine simulates_lift (ArgumentPlace.match_record _ scopes) fun record record' pairedScope => ?_
  have links : Simulates (.same Unit) pairing
      (modifyHeap fun heap => heap.modifyClosure id fun closure => { closure with scope := record })
      (modifyHeap fun heap => heap.modifyClosure image fun closure =>
        { closure with scope := record' }) :=
    simulates_modifyHeap fun _ within _ _ matched =>
      matched.setScope (within.function paired) (within.record pairedScope)
  exact links.map fun _ within _ _ _ => functions.mono within

theorem simulates_assign {name name' value value' : Atom} (names : name.Match pairing name')
    (values : value.Match pairing value') :
    Simulates .atom pairing (assign name value) (assign name' value') := by
  refine simulates_lift (ArgumentPlace.match_token _ names) fun name name' equal => ?_
  subst equal
  refine Simulates.read_both reads_heap reads_scope fun later within machine machine' matched => ?_
  have found := matched.heap.declaring? matched.scope name
  generalize machine.heap.declaring? machine.scope name = scope,
    machine'.heap.declaring? machine'.scope name = scope' at found
  cases found with
  | none => exact simulates_fail _
  | some paired =>
      refine (simulates_define paired name (values.mono within)).map fun _ grows _ _ _ => ?_
      exact values.mono (within.trans grows)

theorem simulates_openScope {evaluator copy : Evaluator} (alike : evaluator.Alike copy)
    {operands operands' : Atom} (same : operands.Match pairing operands') :
    Simulates .atom pairing (openScope evaluator operands) (openScope copy operands') := by
  refine simulates_lift (ArgumentPlace.match_list _ same) fun items items' all => ?_
  have bodies := optionRel_getLast? all
  generalize items.getLast? = body, items'.getLast? = body' at bodies
  cases bodies with
  | none => exact simulates_fail _
  | some bodies =>
      refine Simulates.read reads_scope fun later within machine machine' matched => ?_
      have bindings := match_bindingPairs "using" (forall₂_dropLast (Atom.matchAll_mono within all))
      refine simulates_lift bindings fun bindings bindings' same => ?_
      refine (alike.fields same).bind fun last grows fields fields' same => ?_
      have frames := (Record.match_childOf (grows.record matched.scope)).insertAll same
      refine (simulates_allocRecord frames).bind fun final growsOn scope scope' paired => ?_
      exact Simulates.withScope paired
        (alike.eval (bodies.mono (within.trans (grows.trans growsOn))))

/-! ## Fields -/

section Fields

variable {evaluator copy : Evaluator} (alike : evaluator.Alike copy)

section

include alike

theorem simulates_memberName (function : String) {raw raw' : Atom} (same : raw.Match pairing raw') :
    Simulates (.same String) pairing (memberName evaluator function raw)
      (memberName copy function raw') := by
  unfold memberName
  rw [same.modifier_eq]
  split
  case' isTrue => refine (alike.eval same).bind fun _ _ _ _ same => ?_
  case' isFalse =>
    have read : Simulates .atom pairing (pure raw) (pure raw') := simulates_pure same
    refine read.bind fun _ _ _ _ same => ?_
  all_goals
    dsimp only
    rw [same.name?_eq, same.typeName_eq]
    split
    · exact simulates_pure rfl
    · exact simulates_fail _

theorem simulates_setField {object object' name name' value value' : Atom}
    (objects : object.Match pairing object') (names : name.Match pairing name')
    (values : value.Match pairing value') :
    Simulates .atom pairing (setField evaluator object name value)
      (setField copy object' name' value') := by
  refine simulates_lift (ArgumentPlace.match_record _ objects) fun id image paired => ?_
  refine (simulates_memberName alike "set" names).bind fun later within name _ equal => ?_
  cases equal
  have stores := simulates_define (within.record paired) name (values.mono within)
  exact stores.map fun _ grows _ _ _ => values.mono (within.trans grows)

theorem simulates_storeBindings {id image : RecordId} (paired : pairing.record id image)
    {bindings bindings' : Fields} (same : bindings.Match pairing bindings') :
    Simulates (.same Unit) pairing (storeBindings evaluator id bindings)
      (storeBindings copy image bindings') := by
  refine Simulates.forM (.prod (.same String) .atom) same ?_
  rintro later within ⟨name, atom⟩ ⟨_, atom'⟩ ⟨rfl, same⟩
  refine (alike.eval same).bind fun last grows value value' values => ?_
  exact simulates_define (grows.record (within.record paired)) name values

theorem simulates_setFields {object object' pairs pairs' : Atom}
    (objects : object.Match pairing object') (pairsSame : pairs.Match pairing pairs') :
    Simulates .atom pairing (setFields evaluator object pairs) (setFields copy object' pairs') := by
  refine simulates_lift (ArgumentPlace.match_record _ objects) fun id image paired => ?_
  refine simulates_lift (ArgumentPlace.match_list _ pairsSame) fun items items' all => ?_
  refine simulates_lift (match_bindingPairs "multi-set" all) fun bindings bindings' same => ?_
  exact (simulates_storeBindings alike paired same).map fun _ within _ _ _ => objects.mono within

theorem simulates_copyWith {object object' pairs pairs' : Atom}
    (objects : object.Match pairing object') (pairsSame : pairs.Match pairing pairs') :
    Simulates .atom pairing (copyWith evaluator object pairs) (copyWith copy object' pairs') := by
  refine simulates_lift (ArgumentPlace.match_record _ objects) fun id image paired => ?_
  refine simulates_lift (ArgumentPlace.match_list _ pairsSame) fun items items' all => ?_
  refine Simulates.read reads_heap fun later within machine machine' matched => ?_
  have bindings := match_bindingPairs "with" (Atom.matchAll_mono within all)
  refine simulates_lift bindings fun bindings bindings' same => ?_
  refine (alike.fields same).bind fun last grows fields fields' same => ?_
  have copies := (matched.heap.record (within.record paired)).detached.mono grows
  exact (simulates_allocRecord (copies.insertAll same)).map fun _ _ _ _ paired =>
    .leaf (.record paired)

theorem simulates_getField {object object' name name' : Atom}
    (objects : object.Match pairing object') (names : name.Match pairing name') :
    Simulates .atom pairing (getField evaluator object name) (getField copy object' name') := by
  refine simulates_lift (ArgumentPlace.match_record _ objects) fun id image paired => ?_
  refine (simulates_memberName alike "get" names).bind fun later within name _ equal => ?_
  cases equal
  refine Simulates.read reads_heap fun last grows machine machine' matched => ?_
  have found := (matched.heap.record (grows.record (within.record paired))).get? name
  generalize (machine.heap.record id).get? name = value,
    (machine'.heap.record image).get? name = value' at found
  cases found with
  | none => exact simulates_fail _
  | some same => exact simulates_pure same

theorem simulates_deleteField {object object' name name' : Atom}
    (objects : object.Match pairing object') (names : name.Match pairing name') :
    Simulates .atom pairing (deleteField evaluator object name)
      (deleteField copy object' name') := by
  refine simulates_lift (ArgumentPlace.match_record _ objects) fun id image paired => ?_
  refine (simulates_memberName alike "delete" names).bind fun later within name _ equal => ?_
  cases equal
  have paired := within.record paired
  refine Simulates.read reads_heap fun last grows machine machine' matched => ?_
  have found := (matched.heap.record (grows.record paired)).get? name
  have drops : Simulates (.same Unit) last
      (modifyHeap fun heap => heap.modifyRecord id fun record => record.erase name)
      (modifyHeap fun heap => heap.modifyRecord image fun record => record.erase name) :=
    simulates_modifyHeap fun _ growsOn _ _ matched =>
      matched.modifyRecord (growsOn.record (grows.record paired))
        ((matched.record (growsOn.record (grows.record paired))).erase name)
  refine drops.map fun final growsOn _ _ _ => ?_
  generalize (machine.heap.record id).get? name = value,
    (machine'.heap.record image).get? name = value' at found
  cases found with
  | none => exact Atom.match_leaf rfl
  | some same => exact same.mono growsOn

end

theorem simulates_setParent {object object' parent parent' : Atom}
    (objects : object.Match pairing object') (parents : parent.Match pairing parent') :
    Simulates .atom pairing (setParent object parent) (setParent object' parent') := by
  refine simulates_lift (ArgumentPlace.match_record _ objects) fun id image paired => ?_
  have links {parent parent' : Option RecordId}
      (parents : Option.Rel pairing.record parent parent') :
      Simulates .atom pairing
        (do
          modifyHeap fun heap => heap.modifyRecord id fun record => { record with parent }
          return object)
        (do
          modifyHeap fun heap => heap.modifyRecord image fun record =>
            { record with parent := parent' }
          return object') := by
    refine Simulates.map (simulates_modifyHeap fun later grows _ _ matched => ?_)
      fun _ grows _ _ _ => objects.mono grows
    have contents := matched.record (grows.record paired)
    exact matched.modifyRecord (grows.record paired)
      ⟨contents.fields, optionRel_imp grows.record parents, contents.literal⟩
  dsimp only
  rw [parents.isNil_eq]
  split
  · exact links .none
  · exact simulates_lift (ArgumentPlace.match_record _ parents) fun _ _ paired =>
      links (.some paired)

end Fields

/-! ## Lists -/

section Traversals

variable {evaluator copy : Evaluator} (alike : evaluator.Alike copy)
include alike

theorem simulates_evaluateTimes (count : Nat) {code code' : Atom} (codes : code.Match pairing code')
    {values values' : List Atom} (all : List.Forall₂ (Atom.Match pairing) values values') :
    Simulates (.list .atom) pairing (evaluateTimes evaluator code count values)
      (evaluateTimes copy code' count values') := by
  induction count generalizing pairing values values' with
  | zero => exact simulates_pure (List.rel_reverse all)
  | succ count ih =>
      refine (alike.eval codes).bind fun later within value value' same => ?_
      exact ih (codes.mono within) (.cons same (Atom.matchAll_mono within all))

theorem simulates_array {count count' code code' : Atom} (counts : count.Match pairing count')
    (codes : code.Match pairing code') :
    Simulates .atom pairing (array evaluator count code) (array copy count' code') := by
  refine simulates_lift (ArgumentPlace.match_integer _ counts) fun count count' equal => ?_
  subst equal
  refine (simulates_evaluateTimes alike count.val.toNat codes .nil).map fun _ _ _ _ values => ?_
  exact .list values

theorem simulates_evaluateFor {scope scope' : RecordId} (paired : pairing.record scope scope')
    (name : String) {code code' item item' : Atom} (codes : code.Match pairing code')
    (items : item.Match pairing item') :
    Simulates .atom pairing (evaluateFor evaluator scope name code item)
      (evaluateFor copy scope' name code' item') :=
  (simulates_define paired name items).bind fun _ within _ _ _ => alike.eval (codes.mono within)

theorem simulates_map {name name' list list' code code' : Atom} (names : name.Match pairing name')
    (lists : list.Match pairing list') (codes : code.Match pairing code') :
    Simulates .atom pairing (map evaluator name list code) (map copy name' list' code') := by
  refine simulates_lift (ArgumentPlace.match_token _ names) fun name name' equal => ?_
  subst equal
  refine simulates_lift (ArgumentPlace.match_list _ lists) fun items items' all => ?_
  refine Simulates.withChildScope fun later within scope scope' paired => ?_
  have each : Simulates (.list .atom) later (items.mapM (evaluateFor evaluator scope name code))
      (items'.mapM (evaluateFor copy scope' name code')) :=
    Simulates.mapM .atom (Atom.matchAll_mono within all) fun last grows item item' same =>
      simulates_evaluateFor alike (grows.record paired) name (codes.mono (within.trans grows)) same
  exact each.map fun _ _ _ _ values => .list values

theorem simulates_mapGenerated {scope scope' : RecordId} (paired : pairing.record scope scope')
    (name : String) (rounds : Nat) {next next' code code' : Atom} (nexts : next.Match pairing next')
    (codes : code.Match pairing code') {values values' : List Atom}
    (all : List.Forall₂ (Atom.Match pairing) values values') :
    Simulates (.list .atom) pairing (mapGenerated evaluator scope name next code rounds values)
      (mapGenerated copy scope' name next' code' rounds values') := by
  induction rounds generalizing pairing values values' with
  | zero => exact simulates_throw _
  | succ rounds ih =>
      refine (alike.eval nexts).bind fun later within item item' items => ?_
      refine (simulates_define (within.record paired) name items).bind fun last grows _ _ _ => ?_
      have within := within.trans grows
      rw [Atom.Match.isNil_eq items]
      split
      · exact simulates_pure (List.rel_reverse (Atom.matchAll_mono within all))
      · refine (alike.eval (codes.mono within)).bind fun final growsOn value value' same => ?_
        have within := within.trans growsOn
        exact ih (within.record paired) (nexts.mono within) (codes.mono within)
          (.cons same (Atom.matchAll_mono within all))

theorem simulates_mapWhile {name name' next next' code code' : Atom}
    (names : name.Match pairing name') (nexts : next.Match pairing next')
    (codes : code.Match pairing code') :
    Simulates .atom pairing (mapWhile evaluator name next code)
      (mapWhile copy name' next' code') := by
  refine simulates_lift (ArgumentPlace.match_token _ names) fun name name' equal => ?_
  subst equal
  refine Simulates.withChildScope fun later within scope scope' paired => ?_
  refine (simulates_define paired name (Atom.match_leaf rfl)).bind fun last grows _ _ _ => ?_
  have within := within.trans grows
  rw [alike.rounds]
  exact (simulates_mapGenerated alike (grows.record paired) name copy.rounds (nexts.mono within)
    (codes.mono within) .nil).map fun _ _ _ _ values => .list values

theorem simulates_fold
    {accumulator accumulator' name name' first first' list list' code code' : Atom}
    (accumulators : accumulator.Match pairing accumulator') (names : name.Match pairing name')
    (firsts : first.Match pairing first') (lists : list.Match pairing list')
    (codes : code.Match pairing code') :
    Simulates .atom pairing (fold evaluator accumulator name first list code)
      (fold copy accumulator' name' first' list' code') := by
  refine simulates_lift (ArgumentPlace.match_token _ accumulators) fun accumulator _ equal => ?_
  refine simulates_lift (ArgumentPlace.match_token _ names) fun name _ equal' => ?_
  subst equal equal'
  refine simulates_lift (ArgumentPlace.match_list _ lists) fun items items' all => ?_
  refine Simulates.withChildScope fun later within scope scope' paired => ?_
  refine Simulates.foldlM .atom (Atom.matchAll_mono within all) (firsts.mono within) ?_
  intro last grows value value' same item item' items
  refine (simulates_define (grows.record paired) accumulator same).bind
    fun final growsOn _ _ _ => ?_
  exact simulates_evaluateFor alike ((grows.trans growsOn).record paired) name
    (codes.mono (within.trans (grows.trans growsOn))) (Atom.Match.mono growsOn items)

theorem simulates_filter {name name' list list' code code' : Atom}
    (names : name.Match pairing name') (lists : list.Match pairing list')
    (codes : code.Match pairing code') :
    Simulates .atom pairing (filter evaluator name list code) (filter copy name' list' code') := by
  refine simulates_lift (ArgumentPlace.match_token _ names) fun name name' equal => ?_
  subst equal
  refine simulates_lift (ArgumentPlace.match_list _ lists) fun items items' all => ?_
  refine Simulates.withChildScope fun later within scope scope' paired => ?_
  refine (Simulates.filterM .atom (Atom.matchAll_mono within all) ?_).map fun _ _ _ _ kept =>
    .list kept
  intro last grows item item' same
  refine (simulates_evaluateFor alike (grows.record paired) name
    (codes.mono (within.trans grows)) same).map fun _ _ _ _ holds => ?_
  exact Atom.Match.isTrue_eq holds

theorem simulates_countUp {scope scope' : RecordId} (paired : pairing.record scope scope')
    (name : String) (count : Nat) (current : Int) {code code' last last' : Atom}
    (codes : code.Match pairing code') (lasts : last.Match pairing last') :
    Simulates .atom pairing (countUp evaluator scope name code count current last)
      (countUp copy scope' name code' count current last') := by
  induction count generalizing pairing current last last' with
  | zero => exact simulates_pure lasts
  | succ count ih =>
      refine (simulates_evaluateFor alike paired name codes (Atom.match_leaf rfl)).bind
        fun later within value value' same => ?_
      exact ih (within.record paired) (current + 1) (codes.mono within) same

theorem simulates_forRange {name name' first first' bound bound' code code' : Atom}
    (names : name.Match pairing name') (firsts : first.Match pairing first')
    (bounds : bound.Match pairing bound') (codes : code.Match pairing code') :
    Simulates .atom pairing (forRange evaluator name first bound code)
      (forRange copy name' first' bound' code') := by
  refine simulates_lift (ArgumentPlace.match_token _ names) fun name _ equal => ?_
  refine simulates_lift (ArgumentPlace.match_integer _ firsts) fun first _ equal' => ?_
  refine simulates_lift (ArgumentPlace.match_integer _ bounds) fun bound _ equal'' => ?_
  subst equal equal' equal''
  refine Simulates.withChildScope fun later within scope scope' paired => ?_
  exact simulates_countUp alike paired name _ _ (codes.mono within) (Atom.match_leaf rfl)

end Traversals

/-! ## Storage -/

theorem simulates_serialize {root root' : Atom} (roots : root.Match pairing root') :
    Simulates .atom pairing (serialize root) (serialize root') := by
  refine simulates_lift (ArgumentPlace.match_record _ roots) fun id image paired => ?_
  refine Simulates.read reads_heap fun later within machine machine' matched => ?_
  rw [matched.heap.parallel.save_eq (within.record paired)]
  refine simulates_lift (.of_eq rfl) fun text text' equal => ?_
  subst equal
  exact simulates_pure (Atom.match_leaf rfl)

theorem simulates_writeFile {path path' text text' : Atom} (paths : path.Match pairing path')
    (texts : text.Match pairing text') :
    Simulates .atom pairing (writeFile path text) (writeFile path' text') := by
  refine simulates_lift (ArgumentPlace.match_string _ paths) fun path path' equal => ?_
  refine simulates_lift (ArgumentPlace.match_string _ texts) fun content content' equal' => ?_
  subst equal equal'
  intro later within machine machine' matched
  rw [outcome_bind_of_ok (outcome_get machine), outcome_bind_of_ok (outcome_get machine'),
    matched.files]
  cases machine'.files.write path content with
  | error fault => exact ⟨later, .refl later, matched, .error _⟩
  | ok files =>
      exact ⟨later, .refl later, { matched with files := rfl }, .ok (texts.mono within)⟩

theorem simulates_readFile {path path' : Atom} (paths : path.Match pairing path') :
    Simulates .atom pairing (readFile path) (readFile path') := by
  refine simulates_lift (ArgumentPlace.match_string _ paths) fun path path' equal => ?_
  subst equal
  refine Simulates.read reads_machine fun later _ machine machine' matched => ?_
  dsimp only [id]
  rw [matched.files]
  split
  · exact simulates_pure (Atom.match_leaf rfl)
  · exact simulates_fail _

end Builtin

/-! ## Packs -/

namespace Pack

open Builtin Native

theorem alike_core : ∀ entry ∈ core, entry.2.Alike entry.2 := by
  simp only [core, List.forall_mem_cons, List.not_mem_nil, false_implies, implies_true, and_true]
  refine ⟨?_, ?_, ?_, ?_, ?_, ?_, ?_, ?_, ?_, ?_, ?_, ?_, ?_, ?_, ?_, ?_, ?_, ?_, ?_, ?_, ?_, ?_,
    ?_, ?_, ?_, ?_, ?_, ?_, ?_, ?_, ?_, ?_⟩
  · exact alike_unary fun _ => simulates_parse
  · exact alike_unary fun alike => alike.eval
  · exact alike_pureUnary match_stringToToken
  · exact alike_pureUnary match_tokenToString
  · exact alike_pureUnary match_toInteger
  · exact alike_binary fun _ => simulates_random
  · exact alike_pureUnary match_conjunction
  · exact alike_pureUnary match_equal
  · exact alike_ternary fun alike => simulates_choose alike
  · exact alike_unary fun alike => simulates_select alike
  · exact alike_binary fun alike => simulates_repeatWhile alike
  · exact alike_binary fun _ => simulates_format
  · exact alike_binary fun _ => simulates_makeFunction
  · exact alike_binary fun _ => simulates_setScope
  · exact alike_binary fun _ => simulates_assign
  · exact alike_unary fun alike => simulates_openScope alike
  · exact alike_ternary fun alike => simulates_setField alike
  · exact alike_binary fun alike => simulates_setFields alike
  · exact alike_binary fun alike => simulates_copyWith alike
  · exact alike_binary fun alike => simulates_getField alike
  · exact alike_binary fun alike => simulates_deleteField alike
  · exact alike_binary fun _ => simulates_setParent
  · exact alike_pureUnary .ok
  · exact alike_pureUnary match_length
  · exact alike_pureBinary match_indexGet
  · exact alike_pureTernary fun lists indices => match_replaceAt lists indices
  · exact alike_binary fun alike => simulates_array alike
  · exact alike_pureUnary match_last
  · exact alike_pureUnary match_reverse
  · exact alike_unary fun _ => simulates_serialize
  · exact alike_binary fun _ => simulates_writeFile
  · exact alike_unary fun _ => simulates_readFile

theorem alike_standard : ∀ entry ∈ standard, entry.2.Alike entry.2 := by
  simp only [standard, math, lists, strings, List.cons_append, List.nil_append,
    List.forall_mem_cons, List.not_mem_nil, false_implies, implies_true, and_true]
  refine ⟨?_, ?_, ?_, ?_, ?_, ?_, ?_, ?_, ?_, ?_, ?_, ?_, ?_, ?_, ?_⟩
  · exact alike_pureUnary match_sum
  · exact alike_pureBinary fun first second => match_arithmetic first second _ _ _
  · exact alike_pureBinary fun first second => match_arithmetic first second _ _ _
  · exact alike_pureBinary fun first second => match_arithmetic first second _ _ _
  · exact alike_pureBinary fun first second => match_comparison first second _ _ _
  · exact alike_pureBinary fun first second => match_comparison first second _ _ _
  · exact alike_ternary fun alike => simulates_map alike
  · exact alike_ternary fun alike => simulates_mapWhile alike
  · exact alike_quinary fun alike => simulates_fold alike
  · exact alike_ternary fun alike => simulates_filter alike
  · exact alike_quaternary fun alike => simulates_forRange alike
  · exact alike_pureUnary match_stringLength
  · exact alike_pureBinary match_stringIndex
  · exact alike_pureUnary match_toCharacter
  · exact alike_pureTernary fun texts starts => match_stringPart texts starts

end Pack

/-- What the builtins of the packs do is alike to itself. -/
theorem Registry.DrawnFrom.alike {registry : Registry} (drawn : registry.DrawnFrom Pack.all) :
    registry.Alike registry := by
  refine List.forall₂_same.mpr fun builtin mem => ⟨rfl, rfl, ?_⟩
  obtain ⟨declaration, entry⟩ := drawn builtin mem
  rcases List.mem_append.mp entry with core | standard
  · exact Pack.alike_core _ core
  · exact Pack.alike_standard _ standard

end RecordLisp
