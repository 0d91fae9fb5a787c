import RecordLisp.Builtin.Pack

/-!
# Registries drawn from packs

What a builtin does is what some pack says; its name and its formals are what its declaration says.
A fact about every builtin of a pack is thus a fact about every registry that was filled from it,
however the registry was filled.
-/

namespace RecordLisp

/-- Whether everything that the builtins of a registry do comes from a pack. -/
def Registry.DrawnFrom (registry : Registry) (pack : Pack) : Prop :=
  ∀ builtin ∈ registry.builtins, ∃ declaration, (declaration, builtin.native) ∈ pack

/-- The core and all other packs. -/
def Pack.all : Pack := core ++ standard

namespace Registry

variable {registry : Registry} {pack : Pack}

/-- The same names with builtins that are changed. -/
def map (registry : Registry) (change : Builtin → Builtin)
    (names : ∀ builtin, (change builtin).name = builtin.name) : Registry where
  builtins := registry.builtins.map change
  index := registry.index
  coherent := by
    have same : (fun builtin : Builtin => builtin.name) ∘ change = fun builtin => builtin.name :=
      funext names
    rw [List.map_map, same]
    exact registry.coherent

/-- Builtins that are changed under their names are found changed. -/
theorem get?_map (registry : Registry) (change : Builtin → Builtin)
    (names : ∀ builtin, (change builtin).name = builtin.name) (name : String) :
    (registry.map change names).get? name = (registry.get? name).map change := by
  simp only [get?, map, Option.map_bind, List.getElem?_map, Function.comp_def]

theorem drawnFrom_empty (pack : Pack) : empty.DrawnFrom pack := by
  intro builtin mem
  cases mem

/-- A builtin of a registry was there before a registration, or is the one that was added. -/
theorem mem_register {declaration : String} {native : Native} {builtin : Builtin}
    (mem : builtin ∈ (registry.register declaration native).2.builtins) :
    builtin ∈ registry.builtins ∨ builtin.native = native ∧
      Builtin.readDeclaration declaration = .ok (builtin.name, builtin.signature) := by
  rcases registry.register_cases declaration native with
    ⟨name, signature, new, declares, after⟩ | ⟨_, _, _, _, after⟩ | ⟨_, _, after⟩ <;>
    rw [after] at mem
  · rcases List.mem_append.mp mem with old | added
    · exact .inl old
    · cases List.mem_singleton.mp added
      exact .inr ⟨rfl, declares⟩
  · exact .inl mem
  · exact .inl mem

/-- A builtin of a registry that was filled from a pack was there before, or does what an entry of
the pack says, under the name and with the formals that the entry declares. -/
theorem mem_registerAll {pack : Pack} {builtin : Builtin}
    (mem : builtin ∈ (registry.registerAll pack).2.builtins) :
    builtin ∈ registry.builtins ∨ ∃ declaration, (declaration, builtin.native) ∈ pack ∧
      Builtin.readDeclaration declaration = .ok (builtin.name, builtin.signature) := by
  induction pack generalizing registry with
  | nil => exact .inl mem
  | cons entry pack ih =>
      obtain ⟨declaration, native⟩ := entry
      have added : builtin ∈ (registry.register declaration native).2.builtins →
          builtin ∈ registry.builtins ∨
          ∃ other, (other, builtin.native) ∈ (declaration, native) :: pack ∧
            Builtin.readDeclaration other = .ok (builtin.name, builtin.signature) := by
        intro here
        refine (mem_register here).imp_right ?_
        rintro ⟨same, declared⟩
        exact ⟨declaration, same ▸ List.mem_cons_self, declared⟩
      unfold Registry.registerAll at mem
      split at mem <;> rename_i registered <;> rw [registered] at added
      · rcases ih mem with here | ⟨other, later, declared⟩
        · exact added here
        · exact .inr ⟨other, List.mem_cons_of_mem _ later, declared⟩
      · exact added mem

theorem DrawnFrom.registerAll (drawn : registry.DrawnFrom pack) {added : Pack}
    (within : ∀ entry ∈ added, entry ∈ pack) : (registry.registerAll added).2.DrawnFrom pack := by
  intro builtin mem
  rcases mem_registerAll mem with old | ⟨declaration, entry, _⟩
  · exact drawn builtin old
  · exact ⟨declaration, within _ entry⟩

end Registry

end RecordLisp
