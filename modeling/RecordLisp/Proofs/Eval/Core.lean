import RecordLisp.Proofs.Eval.Run

/-!
# Calls of core builtins

A registry has a pack when every declaration of the pack is found under its name. The rules here
give the values of calls of those core builtins that programs for saved environments consist of.
-/

namespace RecordLisp

open EvalM

/-- Whether a declaration gives a name and formals. -/
def Builtin.declares (declaration name : String) (params : List Param) : Bool :=
  match Builtin.readDeclaration declaration with
  | .ok (found, signature) => found = name ∧ signature.params = params
  | .error _ => false

namespace Registry

/-- Whether the builtins of a pack are found under the names and with the formals they declare. -/
def Has (registry : Registry) (pack : Pack) : Prop :=
  ∀ declaration native, (declaration, native) ∈ pack → ∀ name signature,
    Builtin.readDeclaration declaration = .ok (name, signature) →
    registry.get? name = some ⟨name, signature, native⟩

/-- A builtin that was added is found, and so are those that were found before. -/
theorem get?_register {registry after : Registry} {declaration : String} {native : Native}
    (added : registry.register declaration native = (.ok (), after)) :
    (∀ name signature, Builtin.readDeclaration declaration = .ok (name, signature) →
        after.get? name = some ⟨name, signature, native⟩) ∧
      ∀ name builtin, registry.get? name = some builtin → after.get? name = some builtin := by
  rcases registry.register_cases declaration native with
    ⟨name, signature, new, declares, result⟩ | ⟨_, _, _, _, result⟩ | ⟨_, _, result⟩ <;>
    rw [result] at added <;> cases added
  constructor
  · intro other otherSignature same
    cases declares.symm.trans same
    rw [get?_add, get?_eq_none_iff.mpr new]
    simp
  · intro other builtin found
    rw [get?_add, found, Option.some_or]

theorem registerAll_cons (registry : Registry) (declaration : String) (native : Native)
    (pack : Pack) :
    registry.registerAll ((declaration, native) :: pack) =
      match registry.register declaration native with
      | (.ok (), registry) => registry.registerAll pack
      | (.error error, registry) => (some error, registry) := (rfl)

/-- Adding a whole pack without a fault gives a registry that has it. -/
theorem has_of_registerAll {registry after : Registry} {pack : Pack}
    (added : registry.registerAll pack = (none, after)) :
    after.Has pack ∧ ∀ name builtin, registry.get? name = some builtin →
      after.get? name = some builtin := by
  induction pack generalizing registry with
  | nil =>
      cases added
      refine ⟨fun _ _ mem => ?_, fun _ _ found => found⟩
      cases mem
  | cons entry pack ih =>
      obtain ⟨declaration, native⟩ := entry
      rw [registerAll_cons] at added
      cases first : registry.register declaration native with
      | mk answer middle =>
      rw [first] at added
      cases answer with
      | error error => cases added
      | ok =>
          obtain ⟨hasOthers, keeps⟩ := ih added
          obtain ⟨found, keepsFirst⟩ := get?_register first
          constructor
          · intro other otherNative mem name signature declared
            rcases List.mem_cons.mp mem with same | later
            · cases same
              exact keeps _ _ (found name signature declared)
            · exact hasOthers other otherNative later name signature declared
          · intro name builtin known
            exact keeps name builtin (keepsFirst name builtin known)

theorem has_registerAll {registry : Registry} {pack : Pack}
    (accepted : (registry.registerAll pack).1.isNone = true) :
    (registry.registerAll pack).2.Has pack :=
  (has_of_registerAll (Prod.ext (Option.isNone_iff_eq_none.mp accepted) rfl)).1

variable {registry : Registry} {base : Heap} {fuel : Nat} {scope : RecordId}
  {heap middle after : Heap}

/-! ## Atoms of each kind -/

theorem evaluates_quoted {atom : Atom} (quoted : atom.modifier = .quote) :
    Does base (registry.eval (fuel + 1) atom) scope heap atom.unmarked heap := by
  apply does_tick.bind
  rw [if_pos quoted]
  exact does_pure _

/-- Numbers, strings, functions and nil are their own values. -/
theorem evaluates_leaf {value : Leaf} (noToken : ∀ name, value ≠ .token name)
    (noRecord : ∀ id, value ≠ .record id) :
    Does base (registry.eval (fuel + 1) (.leaf .plain value)) scope heap (.leaf .plain value)
      heap := by
  apply does_tick.bind
  cases value with
  | token name => exact absurd rfl (noToken name)
  | record id => exact absurd rfl (noRecord id)
  | nil | integer | decimal | string | function => exact does_pure _

theorem evaluates_token {name : String} {value : Atom}
    (found : heap.lookup? scope name = some value) :
    Does base (registry.eval (fuel + 1) (.token name)) scope heap value heap := by
  apply does_tick.bind
  refine does_of_gives id fun machine inScope same => ?_
  subst inScope same
  change Effect.outcome (Evaluator.lookup name) machine = _
  unfold Evaluator.lookup
  rw [Effect.outcome_bind_of_ok (Effect.outcome_get machine), found]
  rfl

/-- A record literal without fields gives a new record without fields. -/
theorem evaluates_emptyRecord {id : RecordId} (noFields : (heap.record id).fields = []) :
    Does base (registry.eval (fuel + 1) (.record id)) scope heap
      (.record (heap.allocRecord .empty).1) (heap.allocRecord .empty).2 := by
  apply does_tick.bind
  change Does base (Evaluator.record _ id) scope heap _ _
  apply does_heap.bind
  rw [noFields]
  apply (does_mapM_nil _).bind
  exact (does_allocRecord _).map _

theorem evaluates_call {name : String} {builtin : Builtin} {operands arguments : List Atom}
    {value : Atom} (known : registry.get? name = some builtin)
    (binds : Does base
      (Evaluator.bindOperands ⟨registry.eval fuel, fuel⟩ builtin.name builtin.signature
      operands) scope heap arguments middle)
    (works : Does base (builtin.native ⟨registry.eval fuel, fuel⟩ arguments)
      scope middle value after) :
    Does base (registry.eval (fuel + 1) (.ofList (.token name :: operands)))
      scope heap value after := by
  apply does_tick.bind
  change Does base (Evaluator.call _ registry (.token name :: operands)) scope heap value after
  simp only [Evaluator.call, Evaluator.calleeName?, Option.bind_some, known]
  exact binds.bind works

/-! ## Calls by the number of formals -/

/-- What an operand gives to a formal. -/
def Converts (registry : Registry) (base : Heap) (fuel : Nat) (convention : Convention)
    (operand : Atom) (scope : RecordId) (heap : Heap) (value : Atom) (after : Heap) : Prop :=
  match convention with
  | .evaluated => Does base (registry.eval fuel operand) scope heap value after
  | .quoted => value = operand ∧ after = heap

theorem Converts.does {convention : Convention} {operand value : Atom}
    (converts : registry.Converts base fuel convention operand scope heap value after) :
    Does base (Evaluator.convert ⟨registry.eval fuel, fuel⟩ convention (.raw operand))
      scope heap value after := by
  cases convention with
  | evaluated => exact converts
  | quoted =>
      obtain ⟨rfl, rfl⟩ := converts
      exact does_pure _

theorem evaluates_unary {name : String} {builtin : Builtin} {formal : Param}
    {operand argument value : Atom} (known : registry.get? name = some builtin)
    (formals : builtin.signature.params = [formal]) (single : formal.rest = none)
    (noExpand : operand.modifier ≠ .expand)
    (converts : registry.Converts base fuel formal.convention operand scope heap argument middle)
    (works : Does base (builtin.native ⟨registry.eval fuel, fuel⟩ [argument])
      scope middle value after) :
    Does base (registry.eval (fuel + 1) (.ofList [.token name, operand]))
      scope heap value after := by
  have noRest : builtin.signature.rest? = none := by simp [Signature.rest?, formals, single]
  have fixed : builtin.signature.fixed = [formal] := by simp [Signature.fixed, noRest, formals]
  refine evaluates_call known (Evaluator.does_bindOperands ?_ ?_ noRest ?_) works
  · simpa using noExpand
  · simp [Signature.arityFault?, fixed, noRest]
  · rw [fixed]
    exact does_mapM_cons converts.does (does_mapM_nil _)

theorem evaluates_binary {name : String} {builtin : Builtin} {first second : Param}
    {a b x y value : Atom} {last : Heap}
    (known : registry.get? name = some builtin)
    (formals : builtin.signature.params = [first, second])
    (single : first.rest = none ∧ second.rest = none)
    (noExpand : a.modifier ≠ .expand ∧ b.modifier ≠ .expand)
    (convertsFirst : registry.Converts base fuel first.convention a scope heap x middle)
    (convertsSecond : registry.Converts base fuel second.convention b scope middle y last)
    (works : Does base (builtin.native ⟨registry.eval fuel, fuel⟩ [x, y]) scope last value after) :
    Does base (registry.eval (fuel + 1) (.ofList [.token name, a, b])) scope heap value after := by
  have noRest : builtin.signature.rest? = none := by simp [Signature.rest?, formals, single.2]
  have fixed : builtin.signature.fixed = [first, second] := by
    simp [Signature.fixed, noRest, formals]
  refine evaluates_call known (Evaluator.does_bindOperands ?_ ?_ noRest ?_) works
  · simpa using noExpand
  · simp [Signature.arityFault?, fixed, noRest]
  · rw [fixed]
    exact does_mapM_cons convertsFirst.does (does_mapM_cons convertsSecond.does (does_mapM_nil _))

/-- What operands give to a rest formal. -/
def ConvertsAll (registry : Registry) (base : Heap) (fuel : Nat) (convention : Convention)
    (operands : List Atom) (scope : RecordId) (heap : Heap) (values : List Atom) (after : Heap) :
    Prop :=
  match convention with
  | .evaluated => Does base (operands.mapM (registry.eval fuel)) scope heap values after
  | .quoted => values = operands ∧ after = heap

theorem ConvertsAll.does {convention : Convention} {operands values : List Atom}
    (converts : registry.ConvertsAll base fuel convention operands scope heap values after) :
    Does base ((operands.map Actual.raw).mapM
      (Evaluator.convert ⟨registry.eval fuel, fuel⟩ convention)) scope heap values after := by
  rw [List.mapM_map]
  cases convention with
  | evaluated => exact converts
  | quoted =>
      obtain ⟨rfl, rfl⟩ := converts
      induction values with
      | nil => exact does_mapM_nil _
      | cons operand operands ih => exact does_mapM_cons (does_pure operand) ih

theorem evaluates_variadic {name : String} {builtin : Builtin} {formal : Param} {kind : Rest}
    {operands arguments : List Atom} {value : Atom}
    (known : registry.get? name = some builtin) (formals : builtin.signature.params = [formal])
    (rest : formal.rest = some kind) (enough : kind.minimum ≤ operands.length)
    (noExpand : ∀ operand ∈ operands, operand.modifier ≠ .expand)
    (converts : registry.ConvertsAll base fuel formal.convention operands scope heap arguments
      middle)
    (works : Does base (builtin.native ⟨registry.eval fuel, fuel⟩ [.ofList arguments])
      scope middle value after) :
    Does base (registry.eval (fuel + 1) (.ofList (.token name :: operands)))
      scope heap value after := by
  have isRest : builtin.signature.rest? = some formal := by simp [Signature.rest?, formals, rest]
  have fixed : builtin.signature.fixed = [] := by simp [Signature.fixed, isRest, formals]
  have minimum : builtin.signature.restMinimum = kind.minimum := by
    simp [Signature.restMinimum, isRest, rest]
  have fixedDoes :
      Does base (Evaluator.convertFixed ⟨registry.eval fuel, fuel⟩ builtin.signature.fixed
      (operands.map .raw)) scope heap [] heap := by
    rw [fixed]
    exact does_pure []
  have restDoes : Does base (Evaluator.convertRest ⟨registry.eval fuel, fuel⟩ formal
      ((operands.map .raw).drop builtin.signature.fixed.length)) scope heap arguments middle := by
    rw [fixed]
    exact converts.does
  refine evaluates_call known
    (Evaluator.does_bindOperands_rest noExpand ?_ isRest fixedDoes restDoes) works
  simp [Signature.arityFault?, fixed, isRest, minimum, enough]

theorem evaluates_unaryRest {name : String} {builtin : Builtin} {first second : Param}
    {operand argument value : Atom} {operands arguments : List Atom} {last : Heap}
    (known : registry.get? name = some builtin)
    (formals : builtin.signature.params = [first, second])
    (rest : first.rest = none ∧ second.rest = some .zeroOrMore)
    (noExpand : ∀ other ∈ operand :: operands, other.modifier ≠ .expand)
    (converts : registry.Converts base fuel first.convention operand scope heap argument middle)
    (convertsAll : registry.ConvertsAll base fuel second.convention operands scope middle
      arguments last)
    (works : Does base
      (builtin.native ⟨registry.eval fuel, fuel⟩ [argument, .ofList arguments]) scope
      last value after) :
    Does base (registry.eval (fuel + 1) (.ofList (.token name :: operand :: operands)))
      scope heap value after := by
  have isRest : builtin.signature.rest? = some second := by simp [Signature.rest?, formals, rest.2]
  have fixed : builtin.signature.fixed = [first] := by simp [Signature.fixed, isRest, formals]
  have minimum : builtin.signature.restMinimum = 0 := by
    simp [Signature.restMinimum, isRest, rest.2, Rest.minimum]
  have fixedDoes :
      Does base (Evaluator.convertFixed ⟨registry.eval fuel, fuel⟩ builtin.signature.fixed
      ((operand :: operands).map .raw)) scope heap [argument] middle := by
    rw [fixed]
    exact does_mapM_cons converts.does (does_mapM_nil _)
  have restDoes : Does base (Evaluator.convertRest ⟨registry.eval fuel, fuel⟩ second
      (((operand :: operands).map .raw).drop builtin.signature.fixed.length)) scope middle arguments
      last := by
    rw [fixed]
    exact convertsAll.does
  refine evaluates_call known
    (Evaluator.does_bindOperands_rest noExpand ?_ isRest fixedDoes restDoes) works
  simp [Signature.arityFault?, fixed, isRest, minimum]

/-! ## Calls of particular builtins -/

/-- The builtin behind a declaration of a pack, with its formals. -/
theorem Has.find {pack : Pack} (has : registry.Has pack) {native : Native}
    (declaration name : String) (params : List Param) (mem : (declaration, native) ∈ pack)
    (declares : Builtin.declares declaration name params = true) :
    ∃ builtin, registry.get? name = some builtin ∧ builtin.signature.params = params ∧
      builtin.native = native := by
  unfold Builtin.declares at declares
  split at declares
  · rename_i found signature read
    obtain ⟨rfl, rfl⟩ := of_decide_eq_true declares
    exact ⟨_, has declaration native mem found signature read, rfl, rfl⟩
  · cases declares

section Core

variable (core : registry.Has Pack.core)
include core

/-- The item of a list at an index. -/
theorem evaluates_indexGet {list index value : Atom} {modifier : Modifier} {items : List Atom}
    {position : Integer} {last : Heap}
    (noExpand : list.modifier ≠ .expand ∧ index.modifier ≠ .expand)
    (givesList : Does base (registry.eval fuel list) scope heap (.list modifier items) middle)
    (givesIndex : Does base (registry.eval fuel index) scope middle (.integer position) last)
    (inRange : 0 ≤ position.val) (found : items[position.val.toNat]? = some value) :
    Does base (registry.eval (fuel + 1) (.ofList [.token "index-get", list, index]))
      scope heap value last := by
  obtain ⟨builtin, known, formals, work⟩ := core.find "index-get list index" "index-get"
    [⟨"list", .evaluated, none⟩, ⟨"index", .evaluated, none⟩]
    (by simp [Pack.core]; rfl) (by decide)
  refine evaluates_binary known formals ⟨rfl, rfl⟩ noExpand givesList givesIndex ?_
  rw [work]
  apply does_lift
  simp [Builtin.indexGet, ArgumentPlace.integer, ArgumentPlace.expect, Atom.integer?,
    Builtin.itemAt, bind, Except.bind, inRange, found]

theorem evaluates_stot {operand : Atom} {text : String} (noExpand : operand.modifier ≠ .expand)
    (gives : Does base (registry.eval fuel operand) scope heap (.string text) after) :
    Does base (registry.eval (fuel + 1) (.ofList [.token "stot", operand])) scope heap (.token text)
      after := by
  obtain ⟨builtin, known, formals, work⟩ := core.find "stot string" "stot"
    [⟨"string", .evaluated, none⟩] (by simp [Pack.core]; rfl) (by decide)
  refine evaluates_unary known formals rfl noExpand gives ?_
  rw [work]
  exact does_lift rfl

theorem evaluates_list {operands values : List Atom}
    (noExpand : ∀ operand ∈ operands, operand.modifier ≠ .expand)
    (gives : Does base (operands.mapM (registry.eval fuel)) scope heap values after) :
    Does base (registry.eval (fuel + 1) (.ofList (.token "list" :: operands))) scope heap
      (.ofList values) after := by
  obtain ⟨builtin, known, formals, work⟩ := core.find "list *values" "list"
    [⟨"values", .evaluated, some .zeroOrMore⟩] (by simp [Pack.core]; rfl) (by decide)
  refine evaluates_variadic known formals rfl (Nat.zero_le _) noExpand gives ?_
  rw [work]
  exact does_lift rfl

/-- The value of the last of some atoms, all of which are evaluated. -/
theorem evaluates_last {operands values : List Atom} {value : Atom} (some : operands ≠ [])
    (noExpand : ∀ operand ∈ operands, operand.modifier ≠ .expand)
    (gives : Does base (operands.mapM (registry.eval fuel)) scope heap values after)
    (isLast : values.getLast?.getD .nil = value) :
    Does base (registry.eval (fuel + 1) (.ofList (.token "last" :: operands)))
      scope heap value after := by
  obtain ⟨builtin, known, formals, work⟩ := core.find "last +list" "last"
    [⟨"list", .evaluated, .some .oneOrMore⟩] (by simp [Pack.core]; rfl) (by decide)
  refine evaluates_variadic known formals rfl (List.length_pos_iff.mpr some) noExpand gives ?_
  rw [work]
  exact does_lift (by rw [← isLast]; rfl)

/-- New functions in the active scope. -/
theorem evaluates_func {formals : List Atom} {body : Atom} {signature : Signature}
    (noExpand : body.modifier ≠ .expand) (accepted : Signature.ofFormals formals = .ok signature) :
    Does base (registry.eval (fuel + 1) (.ofList [.token "func", .ofList formals, body])) scope heap
      (.function (heap.allocClosure ⟨signature, body, scope⟩).1)
      (heap.allocClosure ⟨signature, body, scope⟩).2 := by
  obtain ⟨builtin, known, isFormals, work⟩ := core.find "func 'args 'body" "func"
    [⟨"args", .quoted, none⟩, ⟨"body", .quoted, none⟩] (by simp [Pack.core]; rfl) (by decide)
  refine evaluates_binary known isFormals ⟨rfl, rfl⟩ ⟨by simp [Atom.modifier], noExpand⟩
    ⟨rfl, rfl⟩ ⟨rfl, rfl⟩ ?_
  rw [work]
  change Does base (Builtin.makeFunction (.ofList formals) body) scope heap _ _
  apply (does_lift rfl).bind
  rw [accepted]
  exact does_scope.bind ((does_allocClosure _).map _)

/-- Another scope for a function that is not among those kept. -/
theorem evaluates_setScope {function record : Atom} {id : FunctionId} {target : RecordId}
    {last : Heap} (new : ¬ base.HasClosure id)
    (noExpand : function.modifier ≠ .expand ∧ record.modifier ≠ .expand)
    (givesFunction : Does base (registry.eval fuel function) scope heap (.function id) middle)
    (givesRecord : Does base (registry.eval fuel record) scope middle (.record target) last) :
    Does base (registry.eval (fuel + 1) (.ofList [.token "set-decl-scope", function, record]))
      scope heap
      (.function id) (last.modifyClosure id fun closure => { closure with scope := target }) := by
  obtain ⟨builtin, known, formals, work⟩ := core.find "set-decl-scope func scope" "set-decl-scope"
    [⟨"func", .evaluated, none⟩, ⟨"scope", .evaluated, none⟩] (by simp [Pack.core]; rfl)
    (by decide)
  refine evaluates_binary known formals ⟨rfl, rfl⟩ noExpand givesFunction givesRecord ?_
  rw [work]
  change Does base (Builtin.setScope (.function id) (.record target)) scope last _ _
  apply (does_lift rfl).bind
  apply (does_lift rfl).bind
  exact (does_onHeap fun kept => kept.modifyClosure new _).map _

/-- Another parent for a record that is not among those kept. -/
theorem evaluates_setParent {object record : Atom} {id parent : RecordId} {last : Heap}
    (new : ¬ base.HasRecord id) (noExpand : object.modifier ≠ .expand ∧ record.modifier ≠ .expand)
    (givesObject : Does base (registry.eval fuel object) scope heap (.record id) middle)
    (givesParent : Does base (registry.eval fuel record) scope middle (.record parent) last) :
    Does base (registry.eval (fuel + 1) (.ofList [.token "set-parent", object, record])) scope heap
      (.record id) (last.modifyRecord id fun record => { record with parent := some parent }) := by
  obtain ⟨builtin, known, formals, work⟩ := core.find "set-parent object parent" "set-parent"
    [⟨"object", .evaluated, none⟩, ⟨"parent", .evaluated, none⟩] (by simp [Pack.core]; rfl)
    (by decide)
  refine evaluates_binary known formals ⟨rfl, rfl⟩ noExpand givesObject givesParent ?_
  rw [work]
  change Does base (Builtin.setParent (.record id) (.record parent)) scope last _ _
  apply (does_lift rfl).bind
  apply (does_lift rfl).bind
  apply (does_pure _).bind
  exact (does_onHeap fun kept => kept.modifyRecord new _).map _

/-- Fields of a record, each stored before the value of the next is found. -/
theorem evaluates_multiSet {object : Atom} {pairs : List Atom} {bindings : Fields} {id : RecordId}
    (noExpand : ∀ other ∈ object :: pairs, other.modifier ≠ .expand)
    (givesObject : Does base (registry.eval fuel object) scope heap (.record id) middle)
    (accepted : bindingPairs "multi-set" pairs = .ok bindings)
    (stores : Does base (Builtin.storeBindings ⟨registry.eval fuel, fuel⟩ id bindings)
      scope middle () after) :
    Does base (registry.eval (fuel + 1) (.ofList (.token "multi-set" :: object :: pairs)))
      scope heap (.record id) after := by
  obtain ⟨builtin, known, formals, work⟩ := core.find "multi-set object '*pairs" "multi-set"
    [⟨"object", .evaluated, none⟩, ⟨"pairs", .quoted, some .zeroOrMore⟩] (by simp [Pack.core]; rfl)
    (by decide)
  refine evaluates_unaryRest known formals ⟨rfl, rfl⟩ noExpand givesObject ⟨rfl, rfl⟩ ?_
  rw [work]
  change Does base (Builtin.setFields _ (.record id) (.ofList pairs)) scope middle _ _
  apply (does_lift rfl).bind
  apply (does_lift rfl).bind
  apply (does_lift accepted).bind
  exact stores.map _

/-- A list of new values, which an atom gives one after the other. -/
theorem evaluates_array {count code : Atom} {number : Integer} {values : List Atom}
    (noExpand : count.modifier ≠ .expand ∧ code.modifier ≠ .expand)
    (givesCount : Does base (registry.eval fuel count) scope heap (.integer number) middle)
    (gives : Does base
      (Builtin.evaluateTimes ⟨registry.eval fuel, fuel⟩ code number.val.toNat []) scope
      middle values after) :
    Does base (registry.eval (fuel + 1) (.ofList [.token "array", count, code])) scope heap
      (.ofList values) after := by
  obtain ⟨builtin, known, formals, work⟩ := core.find "array count 'code" "array"
    [⟨"count", .evaluated, none⟩, ⟨"code", .quoted, none⟩] (by simp [Pack.core]; rfl)
    (by decide)
  refine evaluates_binary known formals ⟨rfl, rfl⟩ noExpand givesCount ⟨rfl, rfl⟩ ?_
  rw [work]
  change Does base (Builtin.array _ (.integer number) code) scope middle _ _
  apply (does_lift rfl).bind
  exact gives.map _

/-- A body in a new scope with the values of some bindings. -/
theorem evaluates_using {operands : List Atom} {body value : Atom} {bindings fields : Fields}
    (noExpand : ∀ operand ∈ operands ++ [body], operand.modifier ≠ .expand)
    (accepted : bindingPairs "using" operands = .ok bindings)
    (givesFields : Does base (Evaluator.fields ⟨registry.eval fuel, fuel⟩ bindings)
      scope heap fields middle)
    (givesBody : Does base (registry.eval fuel body)
      (middle.allocRecord ((Record.childOf scope).insertAll fields)).1
      (middle.allocRecord ((Record.childOf scope).insertAll fields)).2 value after) :
    Does base (registry.eval (fuel + 1) (.ofList (.token "using" :: (operands ++ [body]))))
      scope heap value after := by
  obtain ⟨builtin, known, formals, work⟩ := core.find "using '+vars" "using"
    [⟨"vars", .quoted, some .oneOrMore⟩] (by simp [Pack.core]; rfl) (by decide)
  refine evaluates_variadic known formals rfl (by simp [Rest.minimum]) noExpand ⟨rfl, rfl⟩ ?_
  rw [work]
  change Does base (Builtin.openScope _ (.ofList (operands ++ [body]))) scope heap _ _
  apply (does_lift rfl).bind
  rw [List.getLast?_append, List.getLast?_singleton, Option.some_or]
  apply does_scope.bind
  rw [List.dropLast_concat]
  apply (does_lift accepted).bind
  apply givesFields.bind
  apply (does_allocRecord _).bind
  exact givesBody.withScope

end Core

end Registry

end RecordLisp
