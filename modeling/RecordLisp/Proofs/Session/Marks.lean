import RecordLisp.Proofs.Heap.Marks
import RecordLisp.Proofs.Session.Invariant

/-!
# Marks in sessions

Where marks stand is an invariant of reading, of evaluation with any of the builtins and of
collections. So it holds in every session that sources lead to, at every moment, and of all atoms
that come up there.
-/

namespace RecordLisp

open Effect

namespace Invariant

/-- The invariant that marks stand where programs can put them. -/
def marks : Invariant where
  heap := Heap.IsMarked
  atom := Heap.Marked
  later := Heap.GrowsInto
  owned := Heap.InUse
  refl := .refl
  trans := .trans
  atom_mono grows known := grows.marked known
  owned_mono grows used := grows.inUse _ used
  leaf noHandle := .leaf (by simp [noHandle]) (.inl rfl)
  unmarked known := known.unmarked
  item := by
    rintro base modifier items ⟨⟩
    assumption
  list known := .list known (.inl rfl)
  target := by
    rintro base modifier target field ⟨⟩
    assumption
  field := by
    rintro base modifier target field ⟨⟩
    assumption
  value kept known := kept.value _ (Heap.marked_record.mp known)
  parent kept known parent mem :=
    Heap.marked_record.mpr (kept.parent _ (Heap.marked_record.mp known) parent mem)
  body kept known := kept.body _ (Heap.marked_function.mp known)
  scope kept known := Heap.marked_record.mpr (kept.scope _ (Heap.marked_function.mp known))
  allocRecord {base record} kept values parent := by
    have used : (base.allocRecord record).2.HasRecord (base.allocRecord record).1 :=
      Heap.hasRecord_allocRecord_iff.mpr (.inl rfl)
    refine ⟨kept.allocRecord values fun above mem => Heap.marked_record.mp (parent above mem), ?_⟩
    exact ⟨(base.keeps_allocRecord record).growsInto, Heap.marked_record.mpr used, used⟩
  allocClosure {base closure} kept body scope := by
    have used : (base.allocClosure closure).2.HasClosure (base.allocClosure closure).1 :=
      Heap.hasClosure_allocClosure_iff.mpr (.inl rfl)
    refine ⟨kept.allocClosure body (Heap.marked_record.mp scope), ?_⟩
    exact ⟨(base.keeps_allocClosure closure).growsInto, Heap.marked_function.mpr used⟩
  modifyRecord kept used values parent literal :=
    kept.modifyRecord used values (fun above mem => Heap.marked_record.mp (parent above mem))
      literal
  setScope kept used scope := kept.setScope used (Heap.marked_record.mp scope)

/-- Programs may change every object that they get hold of. -/
theorem marks_open : marks.Open where
  record _ _ known := Heap.marked_record.mp known
  function _ _ known := Heap.marked_function.mp known

/-- What is read is source text. -/
def marksText : marks.Text where
  kind := ⟨Heap.InSource, fun grows known =>
    ⟨grows.marked known.1, fun handle mem => grows.isLiteral (known.2 handle mem)⟩⟩
  atom known := known.1
  leaf {base value} noHandle :=
    ⟨.leaf (by simp [noHandle]) (.inl rfl), by simp [Atom.objects, Atom.handles, noHandle]⟩
  list known := Heap.InSource.list known
  item known := known.item
  join left _ right _ := left.attach right (.inl rfl)
  mark modifier known _ allowed := known.mark allowed
  record {base record} _ _ _ literal := by
    have used : (base.allocRecord record).2.HasRecord (base.allocRecord record).1 :=
      Heap.hasRecord_allocRecord_iff.mpr (.inl rfl)
    refine ⟨Heap.marked_record.mpr used, fun handle mem => ?_⟩
    cases List.mem_singleton.mp mem
    exact ⟨used, by rw [Heap.record_allocRecord_self, literal]⟩

/-- Marks stand where programs can put them in all sessions. -/
theorem marks_lasting : marks.Lasting where
  empty := by
    refine ⟨fun id used => ?_, fun id used => ?_, fun id used => ?_, fun id used => ?_⟩ <;>
      exact absurd used.1 (Nat.not_lt_zero _)
  reads := marksText.reads
  isOpen := marks_open
  collect kept known := kept.collect known

end Invariant

namespace Heap

variable {heap : Heap} {atom part : Atom}

theorem Marked.within (marked : heap.Marked atom) (within : part.Within atom) :
    heap.Marked part := by
  induction within with
  | here => exact marked
  | item mem _ ih =>
      obtain _ | ⟨items, _⟩ | _ := marked
      exact ih (items _ mem)
  | target _ ih =>
      obtain _ | _ | ⟨target, _, _, _⟩ := marked
      exact ih target
  | field _ ih =>
      obtain _ | _ | ⟨_, field, _, _⟩ := marked
      exact ih field

end Heap

/-- What comes up is marked as programs can mark it. -/
theorem Invariant.marks_admits : marks.Admits Session.Meets := by
  intro session given atom kept meets
  cases meets with
  | part mem within => exact (kept.given _ mem).within within
  | record used => exact Heap.marked_record.mpr used
  | value used mem => exact kept.heap.value _ used _ mem
  | body used => exact kept.heap.body _ used

/-- Marks stand where programs can put them in every session that sources lead to. -/
theorem Session.Reached.isMarked {config : Config} {packs : List Pack} {session : Session}
    {given : List Atom} (standard : ∀ entry ∈ packs.flatten, entry ∈ Pack.standard)
    (reached : Session.Reached Session.Meets config packs session given) :
    session.Carries .marks given :=
  reached.carries Invariant.marks_lasting Invariant.marks_admits standard

end RecordLisp
