import RecordLisp.Proofs.Heap.Emission
import RecordLisp.Proofs.Heap.Marks
import RecordLisp.Proofs.Session.Invariant

/-!
# Printing ends in sessions

Programs refer to objects in use only, so a function that they make is never one of the functions in
its body. This is an invariant of reading, of evaluation with any of the builtins and of
collections, and of everything else that a host asks for with atoms of objects in use. The scopes of
functions may be linked in any way, since printing does not look at them.
-/

namespace RecordLisp

open Effect

theorem Atom.objects_attach (rhs lhs : Atom) (inherited : Modifier) :
    (lhs.attach inherited rhs).objects = lhs.objects ++ rhs.objects := by
  match rhs with
  | .leaf _ _ => rfl
  | .list _ _ => exact congrArg (lhs.objects ++ ·) (objects_withModifier _ _)
  | .member _ target field =>
      rw [attach, objects_attach field, objects_attach target, List.append_assoc]
      rfl

/-- What a record refers to is in use when its values and its parent are. -/
theorem Record.references_inUse {heap : Heap} {record : Record}
    (values : ∀ value ∈ record.values, ∀ handle ∈ value.objects, heap.InUse handle)
    (parent : ∀ parent ∈ record.parent, ∀ handle ∈ (Atom.record parent).objects,
      heap.InUse handle) :
    ∀ next ∈ record.references, heap.InUse next := by
  refine List.forall_mem_append.mpr ⟨fun next mem => ?_, fun next mem => ?_⟩
  · obtain ⟨above, isParent, rfl⟩ := Option.map_eq_some_iff.mp (Option.mem_toList.mp mem)
    exact parent above isParent _ (List.mem_singleton_self _)
  · obtain ⟨value, held, inside⟩ := List.mem_flatMap.mp mem
    exact values value held next inside

namespace Invariant

/-- The invariant that programs refer to objects in use, and that functions do not stand in
themselves. -/
def nesting : Invariant where
  heap := Heap.Layered
  atom base atom := ∀ handle ∈ atom.objects, base.InUse handle
  later := Heap.Grows
  owned := Heap.InUse
  refl _ _ used := used
  trans first second handle used := second handle (first handle used)
  atom_mono grows known handle mem := grows handle (known handle mem)
  owned_mono grows used := grows _ used
  leaf noHandle handle mem := by
    rw [Atom.objects, Atom.handles, noHandle] at mem
    cases mem
  unmarked {base atom} known := (atom.objects_withModifier .plain).symm ▸ known
  item known item mem handle inside := by
    rw [Atom.objects_list] at known
    exact known handle (Atom.mem_handlesOfList.mpr ⟨item, mem, inside⟩)
  list known handle mem := by
    obtain ⟨item, inside, mem⟩ := Atom.mem_handlesOfList.mp (Atom.objects_list _ _ ▸ mem)
    exact known item inside handle mem
  target known handle mem := known handle (List.mem_append_left _ mem)
  field known handle mem := known handle (List.mem_append_right _ mem)
  value layered known value held handle mem :=
    layered.closed _ (known _ (List.mem_singleton_self _)) handle
      (List.mem_append_right _ (List.mem_flatMap.mpr ⟨value, held, mem⟩))
  parent layered known parent isParent := by
    refine List.forall_mem_singleton.mpr ?_
    exact layered.closed _ (known _ (List.mem_singleton_self _)) _
      (Heap.mem_references_parent isParent)
  body layered known handle mem :=
    layered.closed _ (known _ (List.mem_singleton_self _)) handle (List.mem_cons_of_mem _ mem)
  scope layered known :=
    List.forall_mem_singleton.mpr
      (layered.closed _ (known _ (List.mem_singleton_self _)) _ List.mem_cons_self)
  allocRecord {base record} layered values parent := by
    have used : (base.allocRecord record).2.HasRecord (base.allocRecord record).1 :=
      Heap.hasRecord_allocRecord_iff.mpr (.inl rfl)
    exact ⟨layered.allocRecord (Record.references_inUse values parent),
      (base.keeps_allocRecord record).grows,
      List.forall_mem_singleton.mpr used, used⟩
  allocClosure {base closure} layered body scope := by
    have used : (base.allocClosure closure).2.HasClosure (base.allocClosure closure).1 :=
      Heap.hasClosure_allocClosure_iff.mpr (.inl rfl)
    have inUse := List.forall_mem_cons.mpr ⟨scope _ (List.mem_singleton_self _), body⟩
    exact ⟨layered.allocClosure inUse, (base.keeps_allocClosure closure).grows,
      List.forall_mem_singleton.mpr used⟩
  modifyRecord layered used values parent _ :=
    ⟨layered.modifyRecord used (Record.references_inUse values parent), fun _ =>
      Heap.inUse_modifyRecord_iff.mpr⟩
  setScope layered used scope :=
    ⟨layered.setScope used (scope _ (List.mem_singleton_self _)),
      fun _ => Heap.inUse_modifyClosure_iff.mpr⟩

/-- Programs may change every object that they get hold of. -/
theorem nesting_open : nesting.Open where
  record _ _ known := known _ (List.mem_singleton_self _)
  function _ _ known := known _ (List.mem_singleton_self _)

/-- What is read refers to objects in use. -/
def nestingText : nesting.Text where
  kind := .atoms _
  atom known := known
  leaf noHandle := nesting.leaf noHandle
  list known := nesting.list known
  item known := nesting.item known
  join {base target field} left _ right _ := by
    intro handle mem
    rw [Atom.join, Atom.objects_attach] at mem
    exact (List.mem_append.mp mem).elim (left handle) (right handle)
  mark {base atom} modifier known _ _ := by
    intro handle mem
    rw [atom.objects_withModifier] at mem
    exact known handle mem
  record {base record} _ _ _ _ :=
    List.forall_mem_singleton.mpr (Heap.hasRecord_allocRecord_iff.mpr (.inl rfl))

/-- Functions do not stand in themselves in all sessions. -/
theorem nesting_lasting : nesting.Lasting where
  empty := Heap.layered_empty
  reads := nestingText.reads
  isOpen := nesting_open
  collect {base roots} layered known := by
    have grounded : base.Grounded roots := layered.grounded fun handle mem => by
      obtain ⟨root, inside, mem⟩ := List.mem_flatMap.mp mem
      exact known root inside handle mem
    refine ⟨layered.collect grounded, fun root mem handle inside => ?_⟩
    exact (grounded.collect (List.Subset.refl roots)).inUse handle
      (.root (List.mem_flatMap.mpr ⟨root, mem, inside⟩))

end Invariant

/-- Functions are nested in every session that a host reaches with any arrangements of objects in
use. -/
theorem Session.Reached.layered {config : Config} {packs : List Pack} {session : Session}
    {given : List Atom} (standard : ∀ entry ∈ packs.flatten, entry ∈ Pack.standard)
    (reached : Session.Reached Session.Knows config packs session given) :
    session.heap.Layered := by
  have admits : Invariant.nesting.Admits Session.Knows := fun _ _ _ _ known => known
  exact (reached.carries Invariant.nesting_lasting admits standard).heap

/-- In every heap that requests lead to, also while a program runs, a pass over atoms whose handles
have slots comes to its end, whatever was printed before in the pass. In such a pass the fields of a
record are written at most once, and where it is met again the placeholder is written. -/
theorem Session.printing_ends {config : Config} {packs : List Pack} {session : Session}
    {given : List Atom} (standard : ∀ entry ∈ packs.flatten, entry ∈ Pack.standard)
    (reached : Session.Reached Session.Knows config packs session given) {atoms : List Atom}
    (valid : ∀ atom ∈ atoms, ∀ handle ∈ atom.objects, session.heap.HasSlot handle)
    (pass : PrintPass) :
    ∃ texts meetings after, session.heap.PassEnds pass atoms texts meetings after :=
  (reached.layered standard).passEnds valid pass

/-- The global scope holds itself, and a function that holds the global scope and another function.
It is printed twice in one pass. -/
theorem Session.printing_ends_knot :
    let text := "(set @ g (eval (list 'func '(x) (list @ (func (y) y)))))"
    ∃ session, Session.create .standard [] .empty .least = .ok session ∧
      let after := (session.perform (SessionM.runText text)).2
      (∃ given, Session.Reached Session.Knows .standard [] after given) ∧
      ∃ texts meetings last,
        after.heap.PassEnds [] [.record after.global, .record after.global] texts meetings last ∧
        texts = ["[(@ <circular reference>)(g (func (x) (<circular reference> (func (y) y))))]",
          "<circular reference>"] := by
  intro text
  have checked : ((Session.create .standard [] .empty .least).toOption.bind fun session =>
      let after := (session.perform (SessionM.runText text)).2
      (([Atom.record after.global, .record after.global].mapM after.heap.printIn).run []).map
        Prod.fst) =
      some ["[(@ <circular reference>)(g (func (x) (<circular reference> (func (y) y))))]",
        "<circular reference>"] := by
    decide +kernel
  obtain ⟨session, created, checked⟩ := Option.bind_eq_some_iff.mp checked
  have created := eq_ok_of_toOption created
  have standard : ∀ entry ∈ ([] : List Pack).flatten, entry ∈ Pack.standard := nofun
  have reached :=
    Session.Reached.runText (.create created : Session.Reached Session.Knows _ [] _ _) text
  refine ⟨session, created, ⟨_, reached⟩, ?_⟩
  -- From here on only what was checked is known of the session, which is a long computation.
  dsimp only at checked
  generalize (session.perform (SessionM.runText text)).2 = after at checked reached ⊢
  have admits : Invariant.nesting.Admits Session.Knows := fun _ _ _ _ known => known
  have used := (reached.carries Invariant.nesting_lasting admits standard).global
  have valid (handle : Handle) (mem : handle ∈ (Atom.record after.global).objects) :
      after.heap.HasSlot handle := (used handle mem).hasSlot
  obtain ⟨texts, meetings, last, ends⟩ := Session.printing_ends standard reached
    (List.forall_mem_cons.mpr ⟨valid, List.forall_mem_singleton.mpr valid⟩) []
  refine ⟨texts, meetings, last, ends, ?_⟩
  rw [ends.printed] at checked
  exact Option.some.inj checked

end RecordLisp
