import RecordLisp.Proofs.Builtin.Invariant
import RecordLisp.Proofs.Session.Reach
import RecordLisp.Proofs.Source.Invariant

/-!
# Invariants in sessions

An invariant that reading and collections keep holds in every session that a host reaches, and of
all the atoms at hand there, when it holds of the atoms that the host brings. There is one rule for
each kind of step, and those for evaluation hold with any bounds.
-/

namespace RecordLisp

open Effect

/-- An invariant of sessions: it holds of the heap without slots, reading keeps it, programs may
change all that they get hold of, and a collection keeps it and what it knows of the roots. -/
structure Invariant.Lasting (inv : Invariant) : Prop where
  empty : inv.heap .empty
  reads : inv.Reads
  isOpen : inv.Open
  collect : ∀ {base roots}, inv.heap base → (∀ root ∈ roots, inv.atom base root) →
    inv.heap (base.collect roots).2 ∧ ∀ root ∈ roots, inv.atom (base.collect roots).2 root

/-- Whether an invariant holds in a session whose builtins are known to keep it, and of some
atoms. -/
structure Session.Carries (inv : Invariant) (session : Session) (given : List Atom) : Prop where
  drawn : session.registry.DrawnFrom Pack.all
  heap : inv.heap session.heap
  global : inv.atom session.heap (.record session.global)
  scope : inv.atom session.heap (.record session.machine.scope)
  given : ∀ atom ∈ given, inv.atom session.heap atom

/-- Whether an invariant holds of the atoms that a host brings. -/
def Invariant.Admits (inv : Invariant) (host : Session.Host) : Prop :=
  ∀ session given atom, Session.Carries inv session given → host session given atom →
    inv.atom session.heap atom

/-- A value stored in a field of a record that programs get hold of. -/
theorem Invariant.Lasting.insert {inv : Invariant} (lasting : inv.Lasting) {base : Heap}
    {id : RecordId} (kept : inv.heap base) (known : inv.atom base (.record id)) (name : String)
    {value : Atom} (held : inv.atom base value) :
    inv.heap (base.insert id name value) ∧ inv.later base (base.insert id name value) := by
  refine inv.modifyRecord kept (lasting.isOpen.record base id known) (fun other mem => ?_)
    (inv.parent kept known) rfl
  obtain rfl | before := Record.mem_values_insert mem
  · exact held
  · exact inv.value kept known other before

namespace Session.Carries

variable {inv : Invariant} {session : Session} {given : List Atom}

/-! ## Steps -/

theorem outside (kept : session.Carries inv given) (outside : Outside) :
    (session.amid outside).Carries inv given :=
  ⟨kept.drawn, kept.heap, kept.global, kept.scope, kept.given⟩

theorem mono (kept : session.Carries inv given) {fewer : List Atom} (subset : fewer ⊆ given) :
    session.Carries inv fewer :=
  { kept with given := fun atom mem => kept.given atom (subset mem) }

section Steps

variable (kept : session.Carries inv given) (lasting : inv.Lasting)
include kept lasting

theorem maintains : session.registry.Maintains inv := by
  intro builtin mem
  obtain ⟨declaration, entry⟩ := kept.drawn builtin mem
  exact Pack.maintains_all lasting.reads entry fun _ => lasting.isOpen

theorem read (source : Source) :
    (session.perform (SessionM.read source)).2.Carries inv
      ((session.perform (SessionM.read source)).1.toOption.toList ++ given) := by
  obtain ⟨heap, later, known⟩ := lasting.reads session.heap source kept.heap
  have still : ∀ atom ∈ given, inv.atom (source.read session.heap).2 atom :=
    fun atom mem => inv.atom_mono later (kept.given atom mem)
  rw [perform_read]
  refine ⟨kept.drawn, heap, inv.atom_mono later kept.global, inv.atom_mono later kept.scope,
    List.forall_mem_append.mpr ⟨fun atom mem => known atom ?_, still⟩⟩
  generalize (source.read session.heap).1 = result at mem
  cases result with
  | error error => cases mem
  | ok value =>
      cases List.mem_singleton.mp mem
      rfl

theorem evaluate {scope : RecordId} {atom : Atom}
    (atHand : .record scope ∈ .record session.global :: given) (mem : atom ∈ given)
    (fuel steps : Nat) (gasLimit : Option UInt64) :
    (session.advance scope fuel steps gasLimit atom).2.Carries inv
      ((session.advance scope fuel steps gasLimit atom).1.toOption.toList ++ given) := by
  have inScope := List.forall_mem_cons.mpr ⟨kept.global, kept.given⟩ _ atHand
  let machine := { session.machine with scope, steps, gasLimit }
  obtain ⟨later, ⟨heap, _⟩, known⟩ := (kept.maintains lasting).evaluator fuel session.heap atom
    (kept.given atom mem) machine (inv.refl _) ⟨kept.heap, inScope⟩
  refine ⟨kept.drawn, heap, inv.atom_mono later kept.global, inv.atom_mono later kept.scope,
    List.forall_mem_append.mpr ⟨fun value mem => known value ?_, fun other mem =>
      inv.atom_mono later (kept.given other mem)⟩⟩
  exact eq_ok_of_toOption (Option.mem_toList.mp mem)

theorem collect : (session.collect given).Carries inv given := by
  have roots : ∀ root ∈ session.roots given, inv.atom session.heap root :=
    List.forall_mem_cons.mpr ⟨kept.global, List.forall_mem_cons.mpr ⟨kept.scope, kept.given⟩⟩
  obtain ⟨heap, held⟩ := lasting.collect kept.heap roots
  obtain ⟨global, held⟩ := List.forall_mem_cons.mp held
  obtain ⟨scope, held⟩ := List.forall_mem_cons.mp held
  exact ⟨kept.drawn, heap, global, scope, held⟩

theorem setGlobal (name : String) {value : Atom} (known : inv.atom session.heap value) :
    (session.setGlobal name value).Carries inv given := by
  obtain ⟨heap, later⟩ := lasting.insert kept.heap kept.global name known
  exact ⟨kept.drawn, heap, inv.atom_mono later kept.global, inv.atom_mono later kept.scope,
    fun atom mem => inv.atom_mono later (kept.given atom mem)⟩

theorem bindSelf : session.bindSelf.Carries inv given := by
  unfold Session.bindSelf
  split
  · exact kept.setGlobal lasting _ kept.global
  · exact kept

theorem adopt {value : Atom} {record : RecordId} (mem : value ∈ given)
    (isRecord : value.record? = some record) : (session.adopt record).Carries inv given := by
  have known := Invariant.record_of_record? (kept.given value mem) isRecord
  have adopted : Session.Carries inv
      { session with global := record, machine := { session.machine with scope := record } }
        given :=
    ⟨kept.drawn, kept.heap, known, known, kept.given⟩
  exact adopted.bindSelf lasting

end Steps

theorem create {config : Config} {packs : List Pack} {files : Files} {random : RandomSource}
    (lasting : inv.Lasting) (standard : ∀ entry ∈ packs.flatten, entry ∈ Pack.standard)
    (created : Session.create config packs files random = .ok session) :
    session.Carries inv [] := by
  have drawn := drawnFrom_create standard created
  obtain ⟨registry, _, rfl⟩ := create_eq_ok created
  rw [bindSelf_registry] at drawn
  have noValues : ∀ value ∈ Record.empty.values, inv.atom .empty value := List.forall_mem_nil _
  have fresh := inv.allocRecord lasting.empty noValues nofun
  exact bindSelf ⟨drawn, fresh.1, fresh.2.2.1, fresh.2.2.1, List.forall_mem_nil _⟩ lasting

end Session.Carries

/-- An invariant holds in every session that a host reaches, and of the atoms at hand there. -/
theorem Session.Reached.carries {inv : Invariant} {host : Session.Host} {config : Config}
    {packs : List Pack} {session : Session} {given : List Atom} (lasting : inv.Lasting)
    (admits : inv.Admits host) (standard : ∀ entry ∈ packs.flatten, entry ∈ Pack.standard)
    (reached : Session.Reached host config packs session given) : session.Carries inv given := by
  induction reached with
  | create created => exact .create lasting standard created
  | outside outside _ kept => exact kept.outside outside
  | bring _ brings kept =>
      exact { kept with given := List.forall_mem_cons.mpr ⟨admits _ _ _ kept brings, kept.given⟩ }
  | forget _ subset kept => exact kept.mono subset
  | read source _ kept => exact kept.read lasting source
  | evaluate fuel steps gasLimit _ atHand mem kept =>
      exact kept.evaluate lasting atHand mem fuel steps gasLimit
  | collect _ kept => exact kept.collect lasting
  | setGlobal name _ mem kept => exact kept.setGlobal lasting name (kept.given _ mem)
  | adopt _ mem isRecord kept => exact kept.adopt lasting mem isRecord

end RecordLisp
