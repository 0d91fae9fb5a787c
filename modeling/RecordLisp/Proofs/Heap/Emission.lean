import Mathlib.Logic.Relation
import RecordLisp.Proofs.Heap.Nesting

/-!
# Printing as writing

Printing writes a text from left to right. What is still to be written is a row of pieces: texts,
and objects whose pieces come in their place. A record that was printed before in the pass gives way
to a placeholder, and a function is written out whenever it is met. `emitStep` is one such step,
without any bound, and the meetings with records are noted on the way.

Writing ends although functions have no guard. Between two records that are written out, functions
are written out inside one another only, so there are no more of them than slots; and a record is
written out once. The bound on the nesting in print is never met for this reason.
-/

namespace RecordLisp

/-! ## Pieces -/

/-- A piece of output that is still to be written. -/
inductive Piece where
  | text (text : String)
  | object (handle : Handle)

/-- The piece for a leaf. -/
def Leaf.piece : Leaf → Piece
  | .nil => .text "nil"
  | .integer value => .text value.text
  | .decimal value => .text value.text
  | .string text => .text (Text.quoted text)
  | .token name => .text name
  | .record id => .object (.record id)
  | .function id => .object (.function id)

mutual

/-- The pieces of an atom. -/
def Atom.pieces : Atom → List Piece
  | .leaf modifier value => [.text modifier.text, value.piece]
  | .list modifier items =>
      .text (modifier.text ++ "(") :: (Atom.piecesOfItems items ++ [.text ")"])
  | .member modifier target field =>
      .text modifier.text :: (target.pieces ++ .text "." :: field.pieces)

/-- The pieces of some atoms, divided by blanks. -/
def Atom.piecesOfItems : List Atom → List Piece
  | [] => []
  | item :: items =>
      item.pieces ++ if items.isEmpty then [] else .text " " :: Atom.piecesOfItems items

end

/-- The pieces of the fields of a record. -/
def Fields.pieces : Fields → List Piece
  | [] => []
  | (name, value) :: rest =>
      .text ("(" ++ name ++ " ") :: (value.pieces ++ .text ")" :: Fields.pieces rest)

/-- The pieces of a record that is written out. -/
def Record.pieces (record : Record) : List Piece :=
  .text "[" :: (record.fields.pieces ++ [.text "]"])

/-- The pieces of a function. -/
def Closure.pieces (closure : Closure) : List Piece :=
  .text "(func (" :: (Atom.piecesOfItems closure.signature.toAtoms ++
    .text ") " :: (closure.body.pieces ++ [.text ")"]))

/-! ## Steps -/

/-- A meeting with a record: whether the record was printed before, so that only the placeholder was
written. -/
structure Meeting where
  id : RecordId
  repeated : Bool
deriving DecidableEq

/-- The state of a pass: the records printed, what was written, the meetings so far, the last in
front, and what is still to be written. -/
structure Emission where
  pass : PrintPass
  written : String
  meetings : List Meeting
  pending : List Piece

namespace Heap

/-- Writes the next piece, unless nothing is pending. -/
def emitStep (heap : Heap) : Emission → Option Emission
  | ⟨_, _, _, []⟩ => none
  | ⟨pass, written, meetings, .text text :: pending⟩ =>
      some ⟨pass, written ++ text, meetings, pending⟩
  | ⟨pass, written, meetings, .object (.record id) :: pending⟩ =>
      if id ∈ pass then some ⟨pass, written ++ circularReference, ⟨id, true⟩ :: meetings, pending⟩
      else some ⟨id :: pass, written, ⟨id, false⟩ :: meetings, (heap.record id).pieces ++ pending⟩
  | ⟨pass, written, meetings, .object (.function id) :: pending⟩ =>
      some ⟨pass, written, meetings, (heap.closure id).pieces ++ pending⟩

/-- Any number of steps. -/
def Emits (heap : Heap) : Emission → Emission → Prop :=
  Relation.ReflTransGen fun state next => heap.emitStep state = some next

variable {heap : Heap}

/-! ## Meetings -/

/-- Whether the meetings of a pass are noted as they should be: a record counts as printed when it
was printed before the pass or written out in it, and is written out only when it does not. -/
structure Noted (start : PrintPass) (state : Emission) : Prop where
  printed : ∀ id, id ∈ state.pass ↔ id ∈ start ∨ ⟨id, false⟩ ∈ state.meetings
  repeated_iff : ∀ meeting before, meeting :: before <:+ state.meetings →
    (meeting.repeated = true ↔ meeting.id ∈ start ∨ ⟨meeting.id, false⟩ ∈ before)
  once : ∀ id, state.meetings.count ⟨id, false⟩ ≤ 1

variable {start : PrintPass} {state next : Emission}

theorem Noted.meet (noted : Noted start state) {id : RecordId} (repeated : Bool)
    (rightly : repeated = true ↔ id ∈ state.pass) :
    (∀ meeting before, meeting :: before <:+ ⟨id, repeated⟩ :: state.meetings →
      (meeting.repeated = true ↔ meeting.id ∈ start ∨ ⟨meeting.id, false⟩ ∈ before)) ∧
    ∀ other, (⟨id, repeated⟩ :: state.meetings).count ⟨other, false⟩ ≤ 1 := by
  constructor
  · intro meeting before suffix
    obtain same | suffix := List.suffix_cons_iff.mp suffix
    · cases same
      exact rightly.trans (noted.printed id)
    · exact noted.repeated_iff meeting before suffix
  · intro other
    rw [List.count_cons]
    split
    case isTrue same =>
      cases eq_of_beq same
      have new : ⟨id, false⟩ ∉ state.meetings := fun mem =>
        Bool.false_ne_true (rightly.mpr ((noted.printed id).mpr (.inr mem)))
      rw [List.count_eq_zero_of_not_mem new]
    case isFalse => exact noted.once other

/-- A step keeps the notes right. -/
theorem Noted.step (noted : Noted start state) (steps : heap.emitStep state = some next) :
    Noted start next := by
  obtain ⟨pass, written, meetings, pending⟩ := state
  match pending with
  | [] => cases steps
  | .text text :: pending =>
      cases steps
      exact ⟨noted.printed, noted.repeated_iff, noted.once⟩
  | .object (.function id) :: pending =>
      cases steps
      exact ⟨noted.printed, noted.repeated_iff, noted.once⟩
  | .object (.record id) :: pending =>
      rw [emitStep] at steps
      split at steps
      case isTrue seen =>
        cases steps
        obtain ⟨repeated_iff, once⟩ := noted.meet true (iff_of_true rfl seen)
        refine ⟨fun other => ?_, repeated_iff, once⟩
        simpa using noted.printed other
      case isFalse new =>
        cases steps
        obtain ⟨repeated_iff, once⟩ := noted.meet false (iff_of_false Bool.false_ne_true new)
        refine ⟨fun other => ?_, repeated_iff, once⟩
        have before := noted.printed other
        simp only [List.mem_cons, Meeting.mk.injEq, and_true] at before ⊢
        rw [before]
        exact or_left_comm

/-- Whatever is written in a pass, the notes are right. -/
theorem Noted.emits (noted : Noted start state) (emits : heap.Emits state next) :
    Noted start next := by
  induction emits with
  | refl => exact noted
  | tail _ steps before => exact before.step steps

/-! ## Writing pieces -/

/-- Whether some pieces are written as a text, whatever was written before and is pending behind
them. -/
def Writes (heap : Heap) (pass : PrintPass) (pieces : List Piece) (text : String)
    (after : PrintPass) : Prop :=
  ∀ written meetings pending, ∃ more,
    heap.Emits ⟨pass, written, meetings, pieces ++ pending⟩ ⟨after, written ++ text, more, pending⟩

section Writes

variable {pass middle after : PrintPass} {pieces more : List Piece} {text rest : String}

theorem writes_nil : heap.Writes pass [] "" pass :=
  fun _ meetings _ => ⟨meetings, by rw [String.append_empty]; exact .refl⟩

theorem writes_text : heap.Writes pass [.text text] text pass :=
  fun _ meetings _ => ⟨meetings, .single rfl⟩

theorem Writes.append (first : heap.Writes pass pieces text middle)
    (second : heap.Writes middle more rest after) :
    heap.Writes pass (pieces ++ more) (text ++ rest) after := by
  intro written meetings pending
  obtain ⟨noted, emits⟩ := first written meetings (more ++ pending)
  obtain ⟨noted', emitsOn⟩ := second (written ++ text) noted pending
  rw [List.append_assoc, ← String.append_assoc]
  exact ⟨noted', emits.trans emitsOn⟩

theorem writes_repeated {id : RecordId} (seen : id ∈ pass) :
    heap.Writes pass [.object (.record id)] circularReference pass :=
  fun _ meetings _ => ⟨⟨id, true⟩ :: meetings, .single (if_pos seen)⟩

theorem Writes.record {id : RecordId} (new : id ∉ pass)
    (fields : heap.Writes (id :: pass) (heap.record id).pieces text after) :
    heap.Writes pass [.object (.record id)] text after := by
  intro written meetings pending
  obtain ⟨noted, emits⟩ := fields written (⟨id, false⟩ :: meetings) pending
  exact ⟨noted, .head (if_neg new) emits⟩

theorem Writes.function {id : FunctionId}
    (body : heap.Writes pass (heap.closure id).pieces text after) :
    heap.Writes pass [.object (.function id)] text after := by
  intro written meetings pending
  obtain ⟨noted, emits⟩ := body written meetings pending
  exact ⟨noted, .head rfl emits⟩

/-- Records stay printed. -/
theorem Emits.subset (emits : heap.Emits state next) : state.pass ⊆ next.pass := by
  induction emits with
  | refl => exact List.Subset.refl _
  | @tail state next _ steps before =>
      refine List.Subset.trans before ?_
      obtain ⟨pass, written, meetings, pending⟩ := state
      match pending with
      | [] => cases steps
      | .text text :: pending | .object (.function id) :: pending =>
          cases steps
          exact List.Subset.refl _
      | .object (.record id) :: pending =>
          rw [emitStep] at steps
          split at steps <;> cases steps
          · exact List.Subset.refl _
          · exact List.subset_cons_self _ _

theorem Writes.subset (writes : heap.Writes pass pieces text after) : pass ⊆ after := by
  obtain ⟨_, emits⟩ := writes "" [] []
  exact emits.subset

end Writes

/-! ## Printing writes -/

/-- Whether there are at most some records that were not printed. -/
def LeftToPrint (heap : Heap) (pass : PrintPass) (count : Nat) : Prop :=
  ∃ left : List RecordId, left.length ≤ count ∧ ∀ id, heap.HasSlot (.record id) →
    id ∈ pass ∨ id ∈ left

section LeftToPrint

variable {pass after : PrintPass} {count : Nat}

theorem LeftToPrint.mono (few : heap.LeftToPrint pass count) (grows : pass ⊆ after) :
    heap.LeftToPrint after count := by
  obtain ⟨left, short, all⟩ := few
  exact ⟨left, short, fun id slot => (all id slot).imp_left (@grows id)⟩

theorem leftToPrint_all (heap : Heap) (pass : PrintPass) :
    heap.LeftToPrint pass heap.records.size := by
  refine ⟨(List.range heap.records.size).map RecordId.mk, by simp, fun id slot => .inr ?_⟩
  exact List.mem_map.mpr ⟨id.index, List.mem_range.mpr slot, rfl⟩

/-- A record that is printed for the first time is one less. -/
theorem LeftToPrint.cons (few : heap.LeftToPrint pass count) {id : RecordId}
    (slot : heap.HasSlot (.record id))
    (new : id ∉ pass) : ∃ fewer, count = fewer + 1 ∧ heap.LeftToPrint (id :: pass) fewer := by
  obtain ⟨left, short, all⟩ := few
  have mem : id ∈ left := (all id slot).resolve_left new
  have length := List.length_erase_of_mem mem
  have positive := List.length_pos_of_mem mem
  refine ⟨count - 1, by omega, left.erase id, by omega, fun other slot => ?_⟩
  by_cases same : other = id
  · exact .inl (same ▸ List.mem_cons_self)
  · refine (all other slot).imp (List.mem_cons_of_mem _) ?_
    exact (List.mem_erase_of_ne same).mpr

end LeftToPrint

/-- Whether a step of printing succeeds in every pass that has printed all but `count` records, and
gives what its pieces are written as, behind a text that stands before them. -/
def Follows (heap : Heap) (count : Nat) (lead : String) (pieces : List Piece)
    (step : PrintM String) : Prop :=
  ∀ pass, heap.LeftToPrint pass count →
    ∃ text after, step.run pass = some (lead ++ text, after) ∧ heap.Writes pass pieces text after

section Follows

variable {count : Nat} {lead text : String} {pieces more : List Piece} {step : PrintM String}
  {next : String → PrintM String} {object : Handle → PrintM String}

theorem follows_pure : heap.Follows count lead [] (pure lead) :=
  fun pass _ => ⟨"", pass, by rw [String.append_empty]; rfl, writes_nil⟩

theorem Follows.cons (rest : heap.Follows count (lead ++ text) pieces step) :
    heap.Follows count lead (.text text :: pieces) step := by
  intro pass few
  obtain ⟨others, after, ran, writes⟩ := rest pass few
  exact ⟨text ++ others, after, by rw [ran, String.append_assoc], writes_text.append writes⟩

theorem Follows.first (rest : heap.Follows count text pieces step) :
    heap.Follows count "" (.text text :: pieces) step :=
  .cons (by rwa [String.empty_append])

theorem Follows.bind (first : heap.Follows count "" pieces step)
    (goesOn : ∀ text, heap.Follows count (lead ++ text) more (next text)) :
    heap.Follows count lead (pieces ++ more) (step >>= next) := by
  intro pass few
  obtain ⟨text, middle, ran, writes⟩ := first pass few
  rw [String.empty_append] at ran
  obtain ⟨others, after, ranOn, writesOn⟩ := goesOn text middle (few.mono writes.subset)
  refine ⟨text ++ others, after, ?_, writes.append writesOn⟩
  rw [StateT.run_bind, ran, ← String.append_assoc]
  exact ranOn

theorem Follows.last (others : heap.Follows count "" pieces step) :
    heap.Follows count lead pieces (step >>= fun text => pure (lead ++ text)) := by
  rw [← List.append_nil pieces]
  exact others.bind fun _ => follows_pure

theorem follows_leaf {value : Leaf}
    (inside : ∀ handle ∈ value.handle?, heap.Follows count "" [.object handle] (object handle)) :
    heap.Follows count "" [value.piece] (value.printWith object) := by
  cases value with
  | record | function => exact inside _ rfl
  | nil | integer | decimal | string | token => exact .first follows_pure

mutual

/-- An atom is printed as its pieces are written when the objects in it are. -/
theorem follows_atom : ∀ atom : Atom,
    (∀ handle ∈ atom.handles (fun _ => false),
      heap.Follows count "" [.object handle] (object handle)) →
    heap.Follows count "" atom.pieces (atom.printWith object)
  | .leaf _ _, inside =>
      .first <| .last <| follows_leaf fun handle mem => inside handle (Option.mem_toList.mpr mem)
  | .list _ items, inside =>
      .first <| .bind (follows_items items inside) fun _ => .cons follows_pure
  | .member _ target field, inside =>
      .first <| .bind
        (follows_atom target fun handle mem => inside handle (List.mem_append_left _ mem))
        fun _ => .cons <| .last <| follows_atom field fun handle mem =>
          inside handle (List.mem_append_right _ mem)

theorem follows_items : ∀ items : List Atom,
    (∀ handle ∈ Atom.handlesOfList (fun _ => false) items,
      heap.Follows count "" [.object handle] (object handle)) →
    heap.Follows count "" (Atom.piecesOfItems items) (Atom.printItems object items)
  | [], _ => follows_pure
  | item :: items, inside => by
      have others :=
        follows_items items fun handle mem => inside handle (List.mem_append_right _ mem)
      refine .bind (follows_atom item fun handle mem => inside handle (List.mem_append_left _ mem))
        fun first => ?_
      rw [String.empty_append]
      cases items with
      | nil => exact follows_pure
      | cons => exact .cons others.last

end

theorem follows_fields {fields : Fields}
    (inside : ∀ handle ∈ (fields.map Prod.snd).flatMap (Atom.handles fun _ => false),
      heap.Follows count "" [.object handle] (object handle)) :
    heap.Follows count "" fields.pieces (printFields object fields) := by
  induction fields with
  | nil => exact follows_pure
  | cons field fields ih =>
      obtain ⟨inValue, inOthers⟩ := List.forall_mem_append.mp inside
      exact .first <| .bind (follows_atom _ inValue) fun _ => .cons (ih inOthers).last

end Follows

/-! ## Printing ends -/

section Objects

variable {count fuel : Nat}

/-- A record is printed when the objects in its fields are, with one record less to print. -/
theorem follows_record {id : RecordId} (slot : heap.HasSlot (.record id))
    (inside : ∀ fewer, count = fewer + 1 → ∀ handle ∈ heap.shown (.record id),
      heap.Follows fewer "" [.object handle] (heap.printObject fuel handle)) :
    heap.Follows count "" [.object (.record id)] (heap.printObject (fuel + 1) (.record id)) := by
  intro pass few
  rw [run_printObject_record]
  split
  case isTrue seen =>
    refine ⟨circularReference, pass, by rw [String.empty_append], ?_⟩
    exact writes_repeated (List.contains_iff_mem.mp seen)
  case isFalse unseen =>
    have new : id ∉ pass := fun mem => unseen (List.contains_iff_mem.mpr mem)
    obtain ⟨fewer, rfl, left⟩ := few.cons slot new
    have fields : heap.Follows fewer "" (heap.record id).pieces _ :=
      .first <| .bind (follows_fields (inside fewer rfl)) fun _ => .cons follows_pure
    obtain ⟨text, after, ran, writes⟩ := fields (id :: pass) left
    exact ⟨text, after, ran, writes.record new⟩

/-- A function is printed when the objects in its body are. -/
theorem follows_function {id : FunctionId}
    (inside : ∀ handle ∈ heap.shown (.function id),
      heap.Follows count "" [.object handle] (heap.printObject fuel handle)) :
    heap.Follows count "" [.object (.function id)]
      (heap.printObject (fuel + 1) (.function id)) := by
  have formals := (heap.closure id).signature.handles_toAtoms
  have closure : heap.Follows count "" (heap.closure id).pieces
      (heap.printObject (fuel + 1) (.function id)) := by
    refine .first <| .bind (follows_items _ fun handle mem => ?_) fun _ => .cons <|
      .bind (follows_atom _ inside) fun _ => .cons follows_pure
    rw [formals] at mem
    cases mem
  intro pass few
  obtain ⟨text, after, ran, writes⟩ := closure pass few
  exact ⟨text, after, ran, writes.function⟩

end Objects

/-- Objects are printed with a bound that allows for all functions before each record that is left,
and for the functions that are not open yet before the next. -/
theorem Layered.follows_object (layered : heap.Layered) {count fuel : Nat}
    {opened : List FunctionId} (once : opened.Nodup)
    (slots : ∀ id ∈ opened, heap.HasSlot (.function id)) {handle : Handle}
    (slot : heap.HasSlot handle)
    (inside : ∀ inner, handle = .function inner →
      ∀ id ∈ opened, Relation.TransGen heap.InBody inner id)
    (enough : count * (heap.closures.size + 1) + (heap.closures.size - opened.length) < fuel) :
    heap.Follows count "" [.object handle] (heap.printObject fuel handle) := by
  induction fuel generalizing count opened handle with
  | zero => omega
  | succ fuel ih =>
      have slotInside {next : Handle} (mem : next ∈ heap.shown handle) : heap.HasSlot next :=
        (layered.inUse_of_mem_shown _ mem).hasSlot
      cases handle with
      | record id =>
          refine follows_record slot fun fewer same next mem => ?_
          subst same
          -- No function is open inside the record yet, so any may come next.
          refine ih List.nodup_nil (List.forall_mem_nil _) (slotInside mem)
            (fun _ _ _ mem => by cases mem) ?_
          rw [Nat.succ_mul] at enough
          rw [List.length_nil]
          omega
      | function id =>
          have new : id ∉ opened := fun mem =>
            not_rel_self_of_acc (layered.nested.apply id).transGen (inside id rfl id mem)
          have once := List.nodup_cons.mpr ⟨new, once⟩
          have slots : ∀ other ∈ id :: opened, heap.HasSlot (.function other) :=
            List.forall_mem_cons.mpr ⟨slot, slots⟩
          have few := heap.functions_le_of_inRange once slots
          rw [List.length_cons] at few
          refine follows_function fun next mem => ih once slots (slotInside mem) ?_ ?_
          · rintro inner rfl outer mem'
            rcases List.mem_cons.mp mem' with rfl | earlier
            · exact .single mem
            · exact .trans (.single mem) (inside id rfl outer earlier)
          · rw [List.length_cons]
            omega

/-- Atoms are printed as they are written out, in every pass. -/
theorem Layered.follows_printIn (layered : heap.Layered) {atom : Atom}
    (valid : ∀ handle ∈ atom.handles (fun _ => false), heap.HasSlot handle) :
    heap.Follows heap.records.size "" atom.pieces (heap.printIn atom) := by
  refine follows_atom atom fun handle mem => ?_
  refine layered.follows_object List.nodup_nil (List.forall_mem_nil _) (valid handle mem)
    (fun _ _ _ mem => by cases mem) ?_
  unfold printDepth
  rw [Nat.add_mul, List.length_nil]
  omega

/-- A pass over some atoms ends: printing succeeds, and writing the pieces of the atoms comes to its
end with the same texts, where each record is written out at most once and the placeholder stands
for it afterwards. -/
structure PassEnds (heap : Heap) (pass : PrintPass) (atoms : List Atom) (texts : List String)
    (meetings : List Meeting) (after : PrintPass) : Prop where
  printed : (atoms.mapM heap.printIn).run pass = some (texts, after)
  written :
    heap.Emits ⟨pass, "", [], atoms.flatMap Atom.pieces⟩ ⟨after, String.join texts, meetings, []⟩
  once : ∀ id, meetings.count ⟨id, false⟩ ≤ 1
  repeated_iff : ∀ meeting before, meeting :: before <:+ meetings →
    (meeting.repeated = true ↔ meeting.id ∈ pass ∨ ⟨meeting.id, false⟩ ∈ before)

theorem Layered.writes_atoms (layered : heap.Layered) {atoms : List Atom}
    (valid : ∀ atom ∈ atoms, ∀ handle ∈ atom.handles (fun _ => false), heap.HasSlot handle)
    (pass : PrintPass) :
    ∃ texts after, (atoms.mapM heap.printIn).run pass = some (texts, after) ∧
      heap.Writes pass (atoms.flatMap Atom.pieces) (String.join texts) after := by
  induction atoms generalizing pass with
  | nil => exact ⟨[], pass, rfl, writes_nil⟩
  | cons atom atoms ih =>
      obtain ⟨first, others⟩ := List.forall_mem_cons.mp valid
      obtain ⟨text, middle, ran, writes⟩ :=
        layered.follows_printIn first pass (heap.leftToPrint_all pass)
      obtain ⟨texts, after, ranOn, writesOn⟩ := ih others middle
      rw [String.empty_append] at ran
      refine ⟨text :: texts, after, ?_, ?_⟩
      · rw [List.mapM_cons, StateT.run_bind, ran]
        change (atoms.mapM heap.printIn >>= fun texts => pure (text :: texts)).run middle = _
        rw [StateT.run_bind, ranOn]
        rfl
      · rw [List.flatMap_cons, String.join_cons]
        exact writes.append writesOn

/-- Every pass over atoms whose handles have slots ends. -/
theorem Layered.passEnds (layered : heap.Layered) {atoms : List Atom}
    (valid : ∀ atom ∈ atoms, ∀ handle ∈ atom.handles (fun _ => false), heap.HasSlot handle)
    (pass : PrintPass) :
    ∃ texts meetings after, heap.PassEnds pass atoms texts meetings after := by
  obtain ⟨texts, after, printed, writes⟩ := layered.writes_atoms valid pass
  obtain ⟨meetings, written⟩ := writes "" [] []
  rw [List.append_nil, String.empty_append] at written
  have noted : Noted pass ⟨pass, "", [], atoms.flatMap Atom.pieces⟩ := by
    refine ⟨fun id => (or_iff_left (List.not_mem_nil)).symm, fun meeting before suffix => ?_,
      fun id => ?_⟩
    · cases List.suffix_nil.mp suffix
    · exact Nat.zero_le 1
  have noted := noted.emits written
  exact ⟨texts, meetings, after, printed, written, noted.once, noted.repeated_iff⟩

end Heap

end RecordLisp
