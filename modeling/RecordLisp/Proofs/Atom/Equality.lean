import Mathlib.Data.List.Pairwise
import RecordLisp.Builtin.Logic

/-!
# Equality is agreement

Equality of atoms is no equivalence, because an undefined decimal is not equal to itself. Among the
atoms without such a decimal it is equality of canonical forms: what is left of an atom without its
modifiers and without the sign of zero. So it is symmetric and transitive, and looks at neither
modifiers nor that sign; to know this, atoms are taken apart once, for the comparison with their
forms. The builtin compares its first value with the others, which then decides about all pairs.
-/

namespace RecordLisp

/-! ## Leaves -/

/-- The decimal, with the positive zero for the negative one. -/
def Decimal.canonical : Decimal → Decimal
  | .finite negative magnitude => .finite (negative && magnitude.val != 0) magnitude
  | value => value

theorem Decimal.canonical_eq_iff (a b : Decimal) :
    a.canonical = b.canonical ↔ a.rank? = b.rank? := by
  cases a with
  | nan => cases b <;> simp [canonical, rank?]
  | infinite negative =>
      cases b with
      | nan => simp [canonical, rank?]
      | infinite other => cases negative <;> cases other <;> simp [canonical, rank?]
      | finite other magnitude =>
          have inRange := magnitude.isLt
          cases negative <;> cases other <;> simp [canonical, rank?] <;> omega
  | finite negative magnitude =>
      have inRange := magnitude.isLt
      cases b with
      | nan => simp [canonical, rank?]
      | infinite other => cases negative <;> cases other <;> simp [canonical, rank?] <;> omega
      | finite other magnitude' =>
          simp only [canonical, rank?, Option.some.injEq, Decimal.finite.injEq, Fin.ext_iff]
          cases negative <;> cases other <;> simp only [Bool.false_and, Bool.true_and] <;> grind

theorem Decimal.same_iff (a b : Decimal) :
    a.same b = true ↔ a ≠ .nan ∧ a.canonical = b.canonical := by
  rw [canonical_eq_iff, same]
  cases a <;> cases b <;> simp [rank?]

/-- The leaf, with the positive zero for the negative one. -/
def Leaf.canonical : Leaf → Leaf
  | .decimal value => .decimal value.canonical
  | value => value

theorem Leaf.same_iff (a b : Leaf) :
    a.same b = true ↔ a ≠ .decimal .nan ∧ a.canonical = b.canonical := by
  cases a <;> cases b <;> simp [same, canonical, Decimal.same_iff]

/-- Only the undefined decimal has the canonical form of it. -/
theorem Leaf.canonical_eq_nan_iff (value : Leaf) :
    value.canonical = .decimal .nan ↔ value = .decimal .nan := by
  cases value with
  | decimal value => cases value <;> simp [canonical, Decimal.canonical]
  | nil | integer | string | token | record | function => rfl

/-! ## Atoms -/

namespace Atom

mutual

/-- The leaves of an atom at any depth, from left to right. -/
def leaves : Atom → List Leaf
  | .leaf _ value => [value]
  | .list _ items => leavesOfList items
  | .member _ target field => target.leaves ++ field.leaves

/-- The leaves of the items of a list. -/
def leavesOfList : List Atom → List Leaf
  | [] => []
  | item :: items => item.leaves ++ leavesOfList items

end

mutual

/-- The atom without modifiers at any depth, with `change` made to its leaves. -/
def stripped (change : Leaf → Leaf) : Atom → Atom
  | .leaf _ value => .leaf .plain (change value)
  | .list _ items => .list .plain (strippedItems change items)
  | .member _ target field => .member .plain (target.stripped change) (field.stripped change)

/-- The items of a list without modifiers. -/
def strippedItems (change : Leaf → Leaf) : List Atom → List Atom
  | [] => []
  | item :: items => item.stripped change :: strippedItems change items

end

/-- Whether two atoms differ in nothing but modifiers, which may stand at any depth. -/
def UpToModifiers (a b : Atom) : Prop := a.stripped id = b.stripped id

mutual

theorem leaves_stripped (change : Leaf → Leaf) (atom : Atom) :
    (atom.stripped change).leaves = atom.leaves.map change := by
  cases atom with
  | leaf => rfl
  | list _ items => exact leavesOfList_strippedItems change items
  | member _ target field =>
      rw [stripped, leaves, leaves, leaves_stripped change target, leaves_stripped change field,
        List.map_append]

theorem leavesOfList_strippedItems (change : Leaf → Leaf) : ∀ items : List Atom,
    leavesOfList (strippedItems change items) = (leavesOfList items).map change
  | [] => rfl
  | item :: items => by
      rw [strippedItems, leavesOfList, leavesOfList, leaves_stripped change item,
        leavesOfList_strippedItems change items, List.map_append]

end

mutual

/-- Stripping looks at no modifier. -/
theorem stripped_stripped (change : Leaf → Leaf) (atom : Atom) :
    (atom.stripped id).stripped change = atom.stripped change := by
  cases atom with
  | leaf => rfl
  | list _ items =>
      rw [stripped, stripped, strippedItems_strippedItems change items, stripped]
  | member _ target field =>
      rw [stripped, stripped, stripped_stripped change target, stripped_stripped change field,
        stripped]

theorem strippedItems_strippedItems (change : Leaf → Leaf) : ∀ items : List Atom,
    strippedItems change (strippedItems id items) = strippedItems change items
  | [] => rfl
  | item :: items => by
      rw [strippedItems, strippedItems, stripped_stripped change item,
        strippedItems_strippedItems change items, strippedItems]

end

/-- What equality compares: the atom without modifiers and without the sign of zero. -/
def canonical (atom : Atom) : Atom := atom.stripped Leaf.canonical

mutual

/-- Atoms are equal when they have one canonical form and hold no undefined decimal. -/
theorem same_iff : ∀ a b : Atom,
    a.same b = true ↔ .decimal .nan ∉ a.leaves ∧ a.canonical = b.canonical
  | .leaf _ a, .leaf _ b => by
      simp [same, canonical, leaves, stripped, Leaf.same_iff, ne_comm]
  | .list _ items, .list _ others => by
      simp [same, canonical, leaves, stripped, sameItems_iff items others]
  | .member _ target field, .member _ target' field' => by
      have targets := same_iff target target'
      have fields := same_iff field field'
      unfold canonical at targets fields
      simp only [same, Bool.and_eq_true, targets, fields, canonical, leaves, stripped,
        List.mem_append, member.injEq, not_or, true_and]
      exact and_and_and_comm
  | .leaf _ _, .list _ _ | .leaf _ _, .member _ _ _
  | .list _ _, .leaf _ _ | .list _ _, .member _ _ _
  | .member _ _ _, .leaf _ _ | .member _ _ _, .list _ _ => by
      simp [same, canonical, stripped]

theorem sameItems_iff : ∀ items others : List Atom,
    sameItems items others = true ↔ .decimal .nan ∉ leavesOfList items ∧
      strippedItems Leaf.canonical items = strippedItems Leaf.canonical others
  | [], [] => by simp [sameItems, leavesOfList]
  | item :: items, other :: others => by
      have first := same_iff item other
      unfold canonical at first
      simp only [sameItems, Bool.and_eq_true, first, sameItems_iff items others, leavesOfList,
        strippedItems, List.mem_append, List.cons.injEq, not_or]
      exact and_and_and_comm
  | [], _ :: _ | _ :: _, [] => by simp [sameItems, strippedItems]

end

theorem nan_mem_leaves_canonical (atom : Atom) :
    .decimal .nan ∈ atom.canonical.leaves ↔ .decimal .nan ∈ atom.leaves := by
  rw [canonical, leaves_stripped, List.mem_map]
  simp only [Leaf.canonical_eq_nan_iff, exists_eq_right]

theorem same_comm (a b : Atom) : a.same b = b.same a := by
  have flip {a b : Atom} (same : a.same b = true) : b.same a = true := by
    obtain ⟨defined, forms⟩ := (same_iff a b).mp same
    refine (same_iff b a).mpr ⟨?_, forms.symm⟩
    rwa [← nan_mem_leaves_canonical, ← forms, nan_mem_leaves_canonical]
  exact Bool.eq_iff_iff.mpr ⟨flip, flip⟩

theorem same_trans {a b c : Atom} (first : a.same b = true) (second : b.same c = true) :
    a.same c = true := by
  obtain ⟨defined, forms⟩ := (same_iff a b).mp first
  obtain ⟨_, forms'⟩ := (same_iff b c).mp second
  exact (same_iff a c).mpr ⟨defined, forms.trans forms'⟩

theorem same_self_iff (atom : Atom) : atom.same atom = true ↔ .decimal .nan ∉ atom.leaves :=
  (same_iff atom atom).trans (and_iff_left rfl)

namespace UpToModifiers

variable {a b c d : Atom}

theorem canonical_eq (differ : a.UpToModifiers b) : a.canonical = b.canonical := by
  unfold canonical
  rw [← stripped_stripped, differ, stripped_stripped]

theorem leaves_eq (differ : a.UpToModifiers b) : a.leaves = b.leaves := by
  have leaves := congrArg Atom.leaves differ
  rwa [leaves_stripped, leaves_stripped, List.map_id, List.map_id] at leaves

theorem same_eq (first : a.UpToModifiers b) (second : c.UpToModifiers d) : a.same c = b.same d := by
  refine Bool.eq_iff_iff.mpr ?_
  rw [same_iff, same_iff, first.leaves_eq, first.canonical_eq, second.canonical_eq]

end UpToModifiers

end Atom

/-! ## The builtin -/

namespace Builtin

/-- What the first value decides holds of all pairs. -/
theorem allEqual_iff (values : List Atom) :
    allEqual values = true ↔ values.Pairwise fun a b => a.same b = true := by
  cases values with
  | nil => exact ⟨fun _ => .nil, fun _ => rfl⟩
  | cons first rest =>
      rw [allEqual, List.all_eq_true, List.pairwise_cons]
      refine ⟨fun agree => ⟨agree, ?_⟩, And.left⟩
      refine List.pairwise_of_forall_mem_list fun a mem b mem' => ?_
      have back : a.same first = true := (Atom.same_comm a first).trans (agree a mem)
      exact Atom.same_trans back (agree b mem')

theorem allEqual_iff_positions (values : List Atom) :
    allEqual values = true ↔ ∀ (i j : Nat) (first : i < values.length) (second : j < values.length),
      i ≠ j → values[i].same values[j] = true := by
  rw [allEqual_iff, List.pairwise_iff_getElem]
  constructor
  · intro ordered i j first second different
    rcases Nat.lt_or_gt_of_ne different with before | after
    · exact ordered i j first second before
    · exact (Atom.same_comm _ _).trans (ordered j i second first after)
  · exact fun agree i j first second before => agree i j first second (Nat.ne_of_lt before)

theorem allEqual_perm {values others : List Atom} (permuted : values.Perm others) :
    allEqual values = allEqual others := by
  refine Bool.eq_iff_iff.mpr ?_
  rw [allEqual_iff, allEqual_iff]
  exact permuted.pairwise_iff fun {a b} same => (Atom.same_comm b a).trans same

/-- The builtin gives one when the values at every two positions are equal, and zero otherwise, in
whatever order the values stand. The equality is symmetric and transitive; it holds between an atom
and itself exactly when no undefined decimal stands in it, and between the two zeros; and it does
not change when modifiers are changed. -/
theorem equality_is_agreement :
    (∀ (modifier : Modifier) (values : List Atom),
      (equal (.list modifier values) = .ok (.integer .one) ↔
        ∀ (i j : Nat) (first : i < values.length) (second : j < values.length),
          i ≠ j → values[i].same values[j] = true) ∧
      (equal (.list modifier values) = .ok (.integer .one) ∨
        equal (.list modifier values) = .ok (.integer .zero)) ∧
      ∀ others, values.Perm others →
        equal (.list modifier others) = equal (.list modifier values)) ∧
    (∀ a b : Atom, a.same b = b.same a) ∧
    (∀ a b c : Atom, a.same b = true → b.same c = true → a.same c = true) ∧
    (∀ a : Atom, a.same a = true ↔ .decimal .nan ∉ a.leaves) ∧
    (∀ modifier modifier' : Modifier, (Atom.leaf modifier (.decimal .zero)).same
      (.leaf modifier' (.decimal .negativeZero)) = true) ∧
    ∀ a a' b b' : Atom, a.UpToModifiers a' → b.UpToModifiers b' → a.same b = a'.same b' := by
  have decides (modifier : Modifier) (values : List Atom) :
      equal (.list modifier values) = .ok (.boolean (allEqual values)) := rfl
  refine ⟨fun modifier values => ⟨?_, ?_, fun others permuted => ?_⟩, Atom.same_comm,
    fun _ _ _ => Atom.same_trans, Atom.same_self_iff, fun _ _ => rfl,
    fun _ _ _ _ => Atom.UpToModifiers.same_eq⟩
  · rw [← allEqual_iff_positions, decides]
    cases allEqual values <;> simp [Atom.boolean, Integer.one, Integer.zero]
  · rw [decides]
    cases allEqual values
    · exact .inr rfl
    · exact .inl rfl
  · rw [decides, decides, allEqual_perm permuted]

/-- Three lists that differ in marks and in the sign of a zero are equal in every order. With an
undefined decimal among them they are not, and that decimal is not even equal to itself. -/
theorem equality_is_agreement_marked_zeros :
    let marked : Atom := .list .quote [.leaf .expand (.token "a"), .decimal .zero]
    let negative : Atom := .ofList [.token "a", .decimal .negativeZero]
    let plain : Atom := .ofList [.token "a", .decimal .zero]
    let undefined : Atom := .ofList [.decimal .nan]
    [marked, negative, plain].Perm [plain, negative, marked] ∧
    equal (.ofList [plain, negative, marked]) = .ok (.integer .one) ∧
    marked.same negative = true ∧ negative.same plain = true ∧ marked.same plain = true ∧
    marked.UpToModifiers plain ∧ negative.UpToModifiers negative ∧
    marked.same negative = plain.same negative ∧
    undefined.same undefined = false ∧
    equal (.ofList [undefined, undefined]) = .ok (.integer .zero) := by
  intro marked negative plain undefined
  obtain ⟨builtin, _, trans, reflexive, _, marks⟩ := equality_is_agreement
  have permuted : [marked, negative, plain].Perm [plain, negative, marked] :=
    (List.reverse_perm [marked, negative, plain]).symm
  have equalInOrder : equal (.ofList [marked, negative, plain]) = .ok (.integer .one) := rfl
  have first : marked.same negative = true := rfl
  have second : negative.same plain = true := rfl
  refine ⟨permuted, ?_, first, second, trans _ _ _ first second, rfl, rfl, marks _ _ _ _ rfl rfl,
    rfl, ?_⟩
  · exact ((builtin .plain _).2.2 _ permuted).trans equalInOrder
  · refine (builtin .plain [undefined, undefined]).2.1.resolve_left fun agree => ?_
    have agree :=
      (builtin .plain [undefined, undefined]).1.mp agree 0 1 (by decide) (by decide) (by decide)
    exact (reflexive undefined).mp agree (by simp [undefined, Atom.leaves, Atom.leavesOfList])

end Builtin

end RecordLisp
