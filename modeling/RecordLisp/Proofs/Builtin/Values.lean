import RecordLisp.Builtin.Pack
import RecordLisp.Proofs.Simulation

/-!
# Builtins that need nothing but their arguments

A builtin of this kind gives the same error to matching arguments, or matching values. Most of them
look at numbers and text alone, which matching atoms have in common; the others move items of lists
about, and the items match one by one.
-/

namespace RecordLisp

variable {pairing : Pairing}

theorem optionRel_of_eq {α : Type} {value other : Option α} (equal : value = other) :
    Option.Rel Eq value other := by
  subst equal
  cases value with
  | none => exact .none
  | some value => exact .some rfl

/-- Items at the same place of related lists. -/
theorem optionRel_getElem? {α : Type} {relation : α → α → Prop} {items others : List α}
    (related : List.Forall₂ relation items others) (index : Nat) :
    Option.Rel relation items[index]? others[index]? := by
  induction related generalizing index with
  | nil => exact .none
  | cons first _ ih =>
      cases index with
      | zero => exact .some first
      | succ index => exact ih index

theorem optionRel_getLast? {α : Type} {relation : α → α → Prop} {items others : List α}
    (related : List.Forall₂ relation items others) :
    Option.Rel relation items.getLast? others.getLast? := by
  rw [List.getLast?_eq_getElem?, List.getLast?_eq_getElem?, related.length_eq]
  exact optionRel_getElem? related _

theorem forall₂_dropLast {α : Type} {relation : α → α → Prop} {items others : List α}
    (related : List.Forall₂ relation items others) :
    List.Forall₂ relation items.dropLast others.dropLast := by
  rw [List.dropLast_eq_take, List.dropLast_eq_take, related.length_eq]
  exact List.forall₂_take _ related

/-- A test that does not tell related items apart holds of all of them or of none. -/
theorem all_eq_of_related {α : Type} {relation : α → α → Prop} {items others : List α}
    (related : List.Forall₂ relation items others) {test test' : α → Bool}
    (same : ∀ item other, relation item other → test item = test' other) :
    items.all test = others.all test' := by
  induction related with
  | nil => rfl
  | cons first _ ih => rw [List.all_cons, List.all_cons, same _ _ first, ih]

theorem Atom.match_leaf {value : Leaf} (noHandle : value.handle? = none) :
    (Atom.leaf .plain value).Match pairing (.leaf .plain value) :=
  .leaf (.same noHandle)

theorem Atom.match_ofLength {length length' : Nat} (equal : length = length') :
    (Atom.ofLength length).Match pairing (.ofLength length') :=
  equal ▸ match_leaf rfl

theorem Atom.match_boolean {value value' : Bool} (equal : value = value') :
    (Atom.boolean value).Match pairing (.boolean value') :=
  equal ▸ match_leaf rfl

/-! ## Arguments -/

namespace ArgumentPlace

variable {α : Type} {a b : Atom} (place : ArgumentPlace)

theorem match_expect {relation : α → α → Prop} (expected : String) {view : Atom → Option α}
    (same : a.Match pairing b) (views : Option.Rel relation (view a) (view b)) :
    ResultRel relation (place.expect expected view a) (place.expect expected view b) := by
  unfold expect mismatch
  rw [same.typeName_eq]
  generalize view a = found, view b = found' at views
  cases views with
  | none => exact .error _
  | some related => exact .ok related

theorem match_integer (same : a.Match pairing b) :
    ResultRel Eq (place.integer a) (place.integer b) :=
  place.match_expect "integer" same (optionRel_of_eq same.integer?_eq)

theorem match_string (same : a.Match pairing b) :
    ResultRel Eq (place.string a) (place.string b) :=
  place.match_expect "string" same (optionRel_of_eq same.string?_eq)

theorem match_token (same : a.Match pairing b) :
    ResultRel Eq (place.token a) (place.token b) :=
  place.match_expect "token" same (optionRel_of_eq same.token?_eq)

theorem match_number (same : a.Match pairing b) :
    ResultRel Eq (place.number a) (place.number b) :=
  place.match_expect "number" same (optionRel_of_eq (same.view_eq Number.ofAtom? none
    (fun _ _ => rfl) (fun _ _ => rfl) (fun _ _ => rfl) fun _ _ _ => rfl))

theorem match_list (same : a.Match pairing b) :
    ResultRel (List.Forall₂ (Atom.Match pairing)) (place.list a) (place.list b) :=
  place.match_expect "list" same same.list?

theorem match_record (same : a.Match pairing b) :
    ResultRel pairing.record (place.record a) (place.record b) :=
  place.match_expect "record" same same.record?

theorem match_functionId (same : a.Match pairing b) :
    ResultRel pairing.function (place.functionId a) (place.functionId b) :=
  place.match_expect "function" same same.function?

end ArgumentPlace

namespace Builtin

/-! ## Conversions -/

section Conversions

variable {a b : Atom} (same : a.Match pairing b)
include same

theorem match_stringToToken :
    ResultRel (Atom.Match pairing) (stringToToken a) (stringToToken b) := by
  refine (ArgumentPlace.match_string _ same).bind fun text text' equal => .ok ?_
  subst equal
  exact Atom.match_leaf rfl

theorem match_tokenToString :
    ResultRel (Atom.Match pairing) (tokenToString a) (tokenToString b) := by
  refine (ArgumentPlace.match_token _ same).bind fun name name' equal => .ok ?_
  subst equal
  exact Atom.match_leaf rfl

theorem match_toInteger : ResultRel (Atom.Match pairing) (toInteger a) (toInteger b) := by
  cases same with
  | list | member => exact .error _
  | @leaf _ value _ values =>
      cases values with
      | record | function => exact .error _
      | same noHandle =>
          cases value with
          | record | function => cases noHandle
          | nil | token => exact .error _
          | integer value => exact .ok (.leaf (.same rfl))
          | decimal value => exact .ok (Atom.match_leaf rfl)
          | string text =>
              unfold toInteger
              dsimp only
              split
              · exact .ok (Atom.match_leaf rfl)
              · exact .error _

/-! ## Logic -/

theorem match_conjunction : ResultRel (Atom.Match pairing) (conjunction a) (conjunction b) := by
  refine (ArgumentPlace.match_list _ same).bind fun values values' all => .ok ?_
  refine Atom.match_boolean (all_eq_of_related all fun value value' same => ?_)
  cases same with
  | list | member => rfl
  | leaf value => cases value <;> rfl

theorem match_equal : ResultRel (Atom.Match pairing) (equal a) (equal b) := by
  refine (ArgumentPlace.match_list _ same).bind fun values values' all => .ok ?_
  apply Atom.match_boolean
  cases all with
  | nil => rfl
  | cons first rest => exact all_eq_of_related rest fun _ _ same => first.same_eq same

/-! ## Lists -/

theorem match_length : ResultRel (Atom.Match pairing) (length a) (length b) := by
  cases same with
  | list items => exact .ok (Atom.match_ofLength items.length_eq)
  | member => exact .error _
  | @leaf _ value _ values =>
      cases values with
      | record | function => exact .error _
      | same noHandle =>
          cases value with
          | record | function => cases noHandle
          | nil | integer | decimal | token => exact .error _
          | string text => exact .ok (Atom.match_ofLength rfl)

theorem match_last : ResultRel (Atom.Match pairing) (last a) (last b) := by
  refine (ArgumentPlace.match_list _ same).bind fun items items' all => .ok ?_
  have lasts := optionRel_getLast? all
  generalize items.getLast? = item, items'.getLast? = item' at lasts
  cases lasts with
  | none => exact Atom.match_leaf rfl
  | some same => exact same

theorem match_reverse : ResultRel (Atom.Match pairing) (reverse a) (reverse b) := by
  refine (ArgumentPlace.match_list _ same).bind fun items items' all => .ok ?_
  exact .list (List.rel_reverse all)

end Conversions

theorem match_itemAt {α : Type} {relation : α → α → Prop} (function : String)
    {items others : List α} (related : List.Forall₂ relation items others) (index : Integer) :
    ResultRel relation (itemAt function items index) (itemAt function others index) := by
  unfold itemAt
  rw [related.length_eq]
  have found : Option.Rel relation (if 0 ≤ index.val then items[index.val.toNat]? else none)
      (if 0 ≤ index.val then others[index.val.toNat]? else none) := by
    split
    · exact optionRel_getElem? related _
    · exact .none
  generalize (if 0 ≤ index.val then items[index.val.toNat]? else none) = item,
    (if 0 ≤ index.val then others[index.val.toNat]? else none) = item' at found
  cases found with
  | none => exact .error _
  | some here => exact .ok here

section Lists

variable {list list' index index' : Atom} (lists : list.Match pairing list')
  (indices : index.Match pairing index')
include lists indices

theorem match_indexGet :
    ResultRel (Atom.Match pairing) (indexGet list index) (indexGet list' index') := by
  refine (ArgumentPlace.match_integer _ indices).bind fun index index' equal => ?_
  subst equal
  cases lists with
  | list items => exact match_itemAt _ items index
  | member => exact .error _
  | @leaf _ value _ values =>
      cases values with
      | record | function => exact .error _
      | same noHandle =>
          cases value with
          | record | function => cases noHandle
          | nil | integer | decimal | token => exact .error _
          | string text =>
              refine (ResultRel.of_eq rfl).bind fun ch ch' equal => .ok ?_
              subst equal
              exact Atom.match_leaf rfl

theorem match_replaceAt {value value' : Atom} (values : value.Match pairing value') :
    ResultRel (Atom.Match pairing) (replaceAt list index value)
      (replaceAt list' index' value') := by
  refine (ArgumentPlace.match_list _ lists).bind fun items items' all => ?_
  refine (ArgumentPlace.match_integer _ indices).bind fun index index' equal => ?_
  subst equal
  refine (match_itemAt _ all index).bind fun _ _ _ => .ok (.list ?_)
  generalize index.val.toNat = place
  induction all generalizing place with
  | nil => exact .nil
  | cons first rest ih =>
      cases place with
      | zero => exact .cons values rest
      | succ place => exact .cons first (ih place)

end Lists

/-! ## Numbers -/

theorem numbersFrom_eq (operator : String) (position : Nat) {values values' : List Atom}
    (all : List.Forall₂ (Atom.Match pairing) values values') :
    ResultRel Eq (numbersFrom operator position values)
      (numbersFrom operator position values') := by
  induction all generalizing position with
  | nil => exact .ok rfl
  | cons first _ ih =>
      refine (ArgumentPlace.match_number _ first).bind fun number number' equal => ?_
      refine (ih (position + 1)).bind fun numbers numbers' equals => .ok ?_
      rw [equal, equals]

theorem match_sum {a b : Atom} (same : a.Match pairing b) :
    ResultRel (Atom.Match pairing) (sum a) (sum b) := by
  refine (ArgumentPlace.match_list _ same).bind fun values values' all => ?_
  refine (numbersFrom_eq "+" 1 all).bind fun numbers numbers' equal => ?_
  subst equal
  split
  · exact .ok (Atom.match_leaf rfl)
  · refine (ResultRel.of_eq rfl).bind fun total total' equal => .ok ?_
    subst equal
    exact Atom.match_leaf rfl

section Binary

variable {a a' b b' : Atom} (first : a.Match pairing a') (second : b.Match pairing b')
include first second

theorem match_arithmetic (operator : String)
    (integer : Integer → Integer → Except EvalError Integer)
    (decimal : Decimal → Decimal → Decimal) :
    ResultRel (Atom.Match pairing) (arithmetic operator integer decimal a b)
      (arithmetic operator integer decimal a' b') := by
  refine (ArgumentPlace.match_number _ first).bind fun left left' equal => ?_
  refine (ArgumentPlace.match_number _ second).bind fun right right' equal' => ?_
  subst equal equal'
  split
  · refine (ResultRel.of_eq rfl).bind fun result result' equal => .ok ?_
    subst equal
    exact Atom.match_leaf rfl
  · exact .ok (Atom.match_leaf rfl)

theorem match_comparison (operator : String) (integer : Int → Int → Bool)
    (decimal : Decimal → Decimal → Bool) :
    ResultRel (Atom.Match pairing) (comparison operator integer decimal a b)
      (comparison operator integer decimal a' b') := by
  refine (ArgumentPlace.match_number _ first).bind fun left left' equal => ?_
  refine (ArgumentPlace.match_number _ second).bind fun right right' equal' => ?_
  subst equal equal'
  split <;> exact .ok (Atom.match_boolean rfl)

/-! ## Strings -/

theorem match_stringIndex :
    ResultRel (Atom.Match pairing) (stringIndex a b) (stringIndex a' b') := by
  refine (ArgumentPlace.match_string _ first).bind fun text text' equal => ?_
  refine (ArgumentPlace.match_integer _ second).bind fun index index' equal' => ?_
  subst equal equal'
  split
  · exact .ok (Atom.match_leaf rfl)
  · exact .error _

theorem match_stringPart {c c' : Atom} (third : c.Match pairing c') :
    ResultRel (Atom.Match pairing) (stringPart a b c) (stringPart a' b' c') := by
  refine (ArgumentPlace.match_string _ first).bind fun text text' equal => ?_
  refine (ArgumentPlace.match_integer _ second).bind fun start start' equal' => ?_
  refine (ArgumentPlace.match_integer _ third).bind fun length length' equal'' => .ok ?_
  subst equal equal' equal''
  exact Atom.match_leaf rfl

end Binary

theorem match_stringLength {a b : Atom} (same : a.Match pairing b) :
    ResultRel (Atom.Match pairing) (stringLength a) (stringLength b) := by
  refine (ArgumentPlace.match_string _ same).bind fun text text' equal => .ok ?_
  subst equal
  exact Atom.match_leaf rfl

theorem match_toCharacter {a b : Atom} (same : a.Match pairing b) :
    ResultRel (Atom.Match pairing) (toCharacter a) (toCharacter b) := by
  refine (ArgumentPlace.match_integer _ same).bind fun code code' equal => ?_
  subst equal
  split
  · exact .ok (Atom.match_leaf rfl)
  · exact .error _

end Builtin

end RecordLisp
