import RecordLisp.Eval.Machine
import RecordLisp.Index
import RecordLisp.Source.Reader

/-!
# Builtins

A builtin is declared in the language itself: its name and its formals, as they would stand in a
list. A registry keeps builtins in the order of their registration, together with an index that
knows the place of every name. The index locates the builtins in every registry, so no name occurs
twice.
-/

namespace RecordLisp

/-- A function that programs can call by a fixed name. -/
structure Builtin where
  name : String
  signature : Signature
  native : Native

namespace Builtin

/-- The declaration of a builtin: its name and its formals. -/
def text (builtin : Builtin) : String :=
  " ".intercalate (builtin.name :: builtin.signature.params.map Param.text)

/-- The name and the signature that the items of a declaration give. -/
def ofItems (declaration : String) : List Atom → Except SetupError (String × Signature)
  | [] => .error (.malformedDeclaration declaration "missing builtin name")
  | .token name :: formals =>
      match Signature.ofFormals formals with
      | .ok signature => .ok (name, signature)
      | .error fault => .error (.malformedDeclaration declaration fault.message)
  | _ :: _ => .error (.malformedDeclaration declaration "builtin name must be a bare token")

/-- The name and the signature that a declaration gives. -/
def readDeclaration (declaration : String) : Except SetupError (String × Signature) :=
  match ((Source.anonymous ("(" ++ declaration ++ ")")).read .empty).1 with
  | .error error => .error (.parse error)
  | .ok (.list _ items) => ofItems declaration items
  | .ok _ => .error (.malformedDeclaration declaration "expected a list")

end Builtin

/-- Builtins in the order of their registration and the places of their names. -/
structure Registry where
  builtins : List Builtin
  index : Index String
  coherent : index.Locates (builtins.map (·.name))

namespace Registry

/-- The registry without builtins. -/
def empty : Registry := ⟨[], [], Index.locates_nil⟩

instance : Inhabited Registry := ⟨empty⟩

/-- The builtin with a name. -/
def get? (registry : Registry) (name : String) : Option Builtin :=
  (registry.index.find? name).bind (registry.builtins[·]?)

/-- The number of builtins. -/
def size (registry : Registry) : Nat := registry.builtins.length

/-- Adds a builtin behind all others. Its name must be new. -/
def add (registry : Registry) (builtin : Builtin)
    (new : registry.index.find? builtin.name = none) : Registry where
  builtins := registry.builtins ++ [builtin]
  index := registry.index.note builtin.name registry.builtins.length
  coherent := by
    have located := registry.coherent.note new
    rw [List.length_map] at located
    rw [List.map_append]
    exact located

/-- Adds a builtin under a declaration, unless the declaration is malformed or its name is taken. -/
def register (registry : Registry) (declaration : String) (native : Native) :
    Except SetupError Unit × Registry :=
  match Builtin.readDeclaration declaration with
  | .error error => (.error error, registry)
  | .ok (name, signature) =>
      match new : registry.index.find? name with
      | some _ => (.error (.duplicate name), registry)
      | none => (.ok (), registry.add ⟨name, signature, native⟩ new)

/-- Adds builtins in order, up to the first that fails. What was added before stays. -/
def registerAll (registry : Registry) : List (String × Native) → Option SetupError × Registry
  | [] => (none, registry)
  | (declaration, native) :: rest =>
      match registry.register declaration native with
      | (.ok (), registry) => registry.registerAll rest
      | (.error error, registry) => (some error, registry)

/-- Looking a name up finds the builtin that a search for the name would find. -/
theorem get?_eq_find? (registry : Registry) (name : String) :
    registry.get? name = registry.builtins.find? (·.name == name) := by
  unfold get?
  cases found : registry.index.find? name with
  | none =>
      have absent := registry.coherent.find?_eq_none_iff.mp found
      refine (List.find?_eq_none.mpr fun builtin mem same => absent ?_).symm
      exact beq_iff_eq.mp same ▸ List.mem_map_of_mem mem
  | some place =>
      have stands := (registry.coherent name place).mp found
      rw [List.getElem?_map, Option.map_eq_some_iff] at stands
      obtain ⟨builtin, here, rfl⟩ := stands
      obtain ⟨inside, here⟩ := List.getElem?_eq_some_iff.mp here
      symm
      rw [Option.bind_some, List.getElem?_eq_getElem inside, List.find?_eq_some_iff_getElem, here]
      refine ⟨beq_self_eq_true builtin.name, place, inside, here, fun other before => ?_⟩
      have different := List.pairwise_iff_getElem.mp registry.coherent.nodup other place
        (by rw [List.length_map]; omega) (by rwa [List.length_map]) before
      rw [List.getElem_map, List.getElem_map, here] at different
      simpa using different

/-- The names that are taken are those in the index. -/
theorem isSome_get? (registry : Registry) (name : String) :
    (registry.get? name).isSome = (registry.index.find? name).isSome := by
  unfold get?
  cases found : registry.index.find? name with
  | none => rfl
  | some place =>
      have inside := registry.coherent.lt_length found
      rw [List.length_map] at inside
      rw [Option.bind_some, List.getElem?_eq_getElem inside]
      rfl

theorem get?_eq_none_iff {registry : Registry} {name : String} :
    registry.get? name = none ↔ registry.index.find? name = none := by
  rw [← Option.not_isSome_iff_eq_none, isSome_get?, Option.not_isSome_iff_eq_none]

/-- A builtin that is added is found under its name, and the others under theirs. -/
theorem get?_add (registry : Registry) (builtin : Builtin)
    (new : registry.index.find? builtin.name = none) (name : String) :
    (registry.add builtin new).get? name =
      (registry.get? name).or ([builtin].find? (·.name == name)) := by
  rw [get?_eq_find?, get?_eq_find?]
  exact List.find?_append

/-- What a registration can do: add the builtin that is declared, find its name taken, or find no
declaration. -/
theorem register_cases (registry : Registry) (declaration : String) (native : Native) :
    (∃ name signature new, Builtin.readDeclaration declaration = .ok (name, signature) ∧
      registry.register declaration native =
        (.ok (), registry.add ⟨name, signature, native⟩ new)) ∨
    (∃ name signature, Builtin.readDeclaration declaration = .ok (name, signature) ∧
      (registry.get? name).isSome = true ∧
      registry.register declaration native = (.error (.duplicate name), registry)) ∨
    ∃ error, Builtin.readDeclaration declaration = .error error ∧
      registry.register declaration native = (.error error, registry) := by
  unfold register
  cases Builtin.readDeclaration declaration with
  | error error => exact .inr (.inr ⟨error, rfl, rfl⟩)
  | ok declared =>
      obtain ⟨name, signature⟩ := declared
      dsimp only
      split
      · rename_i place found
        refine .inr (.inl ⟨name, signature, rfl, ?_, rfl⟩)
        rw [isSome_get?, found]
        rfl
      · rename_i new
        exact .inl ⟨name, signature, new, rfl, rfl⟩

/-- The declarations, one a line. -/
def listing (registry : Registry) : String :=
  String.join (registry.builtins.map fun builtin => builtin.text ++ "\n")

end Registry

end RecordLisp
