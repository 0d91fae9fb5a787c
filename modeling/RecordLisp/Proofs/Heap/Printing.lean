import RecordLisp.Printer
import RecordLisp.Proofs.Heap.Matching

/-!
# Matching atoms have the same text

Printing shows names, numbers and shapes but no handles, so matching atoms of parallel heaps print
alike. The two heaps may have different numbers of slots and so print with different bounds; the
argument has to show that neither bound is met, unless no bound is large enough.

Between two records that are opened, a path goes through functions each of which stands in the body
of the one before. Where printing ends, no function stands inside itself in this way, so they are
different from one another. A record is opened once in a pass. So each level of nesting lowers
`printNeed`, and the bound of a heap is large enough for it.
-/

namespace RecordLisp

/-- Two steps of printing that both succeed when one of them does, with the same value, from passes
in which the same records were printed, at least `least` of them. When `sure`, both do succeed. -/
def PrintM.Agree (sure : Prop) (pairing : Pairing) (least : Nat) {α : Type}
    (step step' : PrintM α) :
    Prop :=
  ∀ pass pass', List.Forall₂ pairing.record pass pass' → pass.Nodup → least ≤ pass.length →
    sure ∨ (step.run pass).isSome ∨ (step'.run pass').isSome →
    ∃ value later later', step.run pass = some (value, later) ∧
      step'.run pass' = some (value, later') ∧ List.Forall₂ pairing.record later later' ∧
      later.Nodup ∧ pass.length ≤ later.length

section Agree

variable {sure : Prop} {pairing : Pairing} {least : Nat} {α β : Type}

theorem PrintM.agree_pure (value : α) : Agree sure pairing least (pure value) (pure value) :=
  fun pass pass' paired once _ _ => ⟨value, pass, pass', rfl, rfl, paired, once, Nat.le_refl _⟩

theorem exists_of_isSome_bind {value : Option α} {next : α → Option β}
    (ends : (value >>= next).isSome) : ∃ result, value = some result ∧ (next result).isSome := by
  cases value with
  | none => cases ends
  | some result => exact ⟨result, rfl, ends⟩

theorem isSome_of_bind {value : Option α} {next : α → Option β} (ends : (value >>= next).isSome) :
    value.isSome := by
  obtain ⟨result, rfl, _⟩ := exists_of_isSome_bind ends
  rfl

theorem PrintM.Agree.bind {step step' : PrintM α} {next next' : α → PrintM β}
    (first : Agree sure pairing least step step')
    (goesOn : ∀ value, Agree sure pairing least (next value) (next' value)) :
    Agree sure pairing least (step >>= next) (step' >>= next') := by
  intro pass pass' paired once enough ends
  rw [StateT.run_bind, StateT.run_bind] at ends
  obtain ⟨value, middle, middle', runs, runs', paired, once, grows⟩ := first _ _ paired once enough
    (ends.imp_right (Or.imp isSome_of_bind isSome_of_bind))
  rw [runs, runs'] at ends
  obtain ⟨result, later, later', ends, ends', paired, once, growsOn⟩ :=
    goesOn value _ _ paired once (Nat.le_trans enough grows) ends
  refine ⟨result, later, later', ?_, ?_, paired, once, Nat.le_trans grows growsOn⟩
  · rw [StateT.run_bind, runs]
    exact ends
  · rw [StateT.run_bind, runs']
    exact ends'

/-! ## Atoms -/

variable {object object' : Handle → PrintM String}

theorem Leaf.Match.agree_print {value other : Leaf} (matched : value.Match pairing other)
    (inside : ∀ handle, value.handle? = some handle → ∀ image, handle.Match pairing image →
      PrintM.Agree sure pairing least (object handle) (object' image)) :
    PrintM.Agree sure pairing least (value.printWith object) (other.printWith object') := by
  cases matched with
  | same noHandle =>
      cases value with
      | record | function => cases noHandle
      | nil | integer | decimal | string | token => exact PrintM.agree_pure _
  | record paired => exact inside _ rfl _ (.record paired)
  | function paired => exact inside _ rfl _ (.function paired)

mutual

/-- Matching atoms print alike when the objects in them do. -/
theorem Atom.Match.agree_print : ∀ {atom other : Atom}, atom.Match pairing other →
    (∀ handle ∈ atom.handles (fun _ => false), ∀ image, handle.Match pairing image →
      PrintM.Agree sure pairing least (object handle) (object' image)) →
    PrintM.Agree sure pairing least (atom.printWith object) (other.printWith object')
  | .leaf _ _, _, .leaf value, inside => by
      refine PrintM.Agree.bind (value.agree_print fun handle named => ?_) fun _ =>
        PrintM.agree_pure _
      exact inside handle (by simp [handles, named])
  | .list _ _, _, .list items, inside => by
      simp only [handles, Bool.false_eq_true, if_false] at inside
      exact PrintM.Agree.bind (Atom.agree_printItems items inside) fun _ => PrintM.agree_pure _
  | .member _ _ _, _, .member target field, inside => by
      simp only [handles, List.mem_append] at inside
      refine PrintM.Agree.bind (Atom.Match.agree_print target ?_) fun _ =>
        PrintM.Agree.bind (Atom.Match.agree_print field ?_) fun _ => PrintM.agree_pure _
      · exact fun handle mem => inside handle (.inl mem)
      · exact fun handle mem => inside handle (.inr mem)

theorem Atom.agree_printItems : ∀ {items others : List Atom},
    List.Forall₂ (Atom.Match pairing) items others →
    (∀ handle ∈ Atom.handlesOfList (fun _ => false) items, ∀ image, handle.Match pairing image →
      PrintM.Agree sure pairing least (object handle) (object' image)) →
    PrintM.Agree sure pairing least (Atom.printItems object items) (Atom.printItems object' others)
  | [], _, .nil, _ => PrintM.agree_pure _
  | _ :: _, _ :: others, .cons item items, inside => by
      simp only [handlesOfList, List.mem_append] at inside
      refine PrintM.Agree.bind (Atom.Match.agree_print item ?_) fun _ =>
        PrintM.Agree.bind (Atom.agree_printItems items ?_) fun _ => ?_
      · exact fun handle mem => inside handle (.inl mem)
      · exact fun handle mem => inside handle (.inr mem)
      · cases items <;> exact PrintM.agree_pure _

end

theorem Fields.Match.agree_print {fields others : Fields} (matched : fields.Match pairing others)
    (inside : ∀ handle image, handle.Match pairing image →
      PrintM.Agree sure pairing least (object handle) (object' image)) :
    PrintM.Agree sure pairing least (Heap.printFields object fields)
      (Heap.printFields object' others) := by
  induction matched with
  | nil => exact PrintM.agree_pure _
  | @cons field other _ _ same _ ih =>
      obtain ⟨name, value⟩ := field
      obtain ⟨name', value'⟩ := other
      obtain ⟨rfl, values⟩ := same
      refine PrintM.Agree.bind (values.agree_print fun handle _ => inside handle) fun _ => ?_
      exact PrintM.Agree.bind ih fun _ => PrintM.agree_pure _

end Agree

section Inside

variable {object : Handle → PrintM String} {pass : PrintPass}

mutual

/-- Printing an atom prints everything in it, each in some pass. -/
theorem Atom.isSome_object_of_print : ∀ atom : Atom, ∀ {pass : PrintPass},
    ((atom.printWith object).run pass).isSome → ∀ handle ∈ atom.handles (fun _ => false),
      ∃ pass, ((object handle).run pass).isSome
  | .leaf _ value, pass, ends, handle, mem => by
      rw [printWith, StateT.run_bind] at ends
      have ends := isSome_of_bind ends
      cases value with
      | record id | function id =>
          cases List.mem_singleton.mp mem
          exact ⟨pass, ends⟩
      | nil | integer | decimal | string | token => cases mem
  | .list _ items, pass, ends, handle, mem => by
      rw [printWith, StateT.run_bind] at ends
      exact Atom.isSome_object_of_printItems items (isSome_of_bind ends) handle mem
  | .member _ target field, pass, ends, handle, mem => by
      rw [printWith, StateT.run_bind] at ends
      rcases List.mem_append.mp mem with mem | mem
      · exact Atom.isSome_object_of_print target (isSome_of_bind ends) handle mem
      · obtain ⟨⟨_, middle⟩, _, ends⟩ := exists_of_isSome_bind ends
        rw [StateT.run_bind] at ends
        exact Atom.isSome_object_of_print field (isSome_of_bind ends) handle mem

theorem Atom.isSome_object_of_printItems : ∀ items : List Atom, ∀ {pass : PrintPass},
    ((Atom.printItems object items).run pass).isSome →
      ∀ handle ∈ Atom.handlesOfList (fun _ => false) items,
        ∃ pass, ((object handle).run pass).isSome
  | [], _, _, _, mem => by cases mem
  | item :: items, pass, ends, handle, mem => by
      rw [printItems, StateT.run_bind] at ends
      rcases List.mem_append.mp mem with mem | mem
      · exact Atom.isSome_object_of_print item (isSome_of_bind ends) handle mem
      · obtain ⟨⟨_, middle⟩, _, ends⟩ := exists_of_isSome_bind ends
        rw [StateT.run_bind] at ends
        exact Atom.isSome_object_of_printItems items (isSome_of_bind ends) handle mem

end

end Inside

/-! ## Objects -/

/-- Formals are tokens, so they refer to nothing. -/
theorem Signature.handles_toAtoms (signature : Signature) :
    Atom.handlesOfList (fun _ => false) signature.toAtoms = [] := by
  unfold Signature.toAtoms
  generalize signature.params = params
  induction params with
  | nil => rfl
  | cons param params ih => exact ih

namespace Heap

variable {sure : Prop} {pairing : Pairing} {heap other : Heap}

/-- A bound on the nesting that is still to come in a pass that has printed `seen` records, inside
`opened` functions since the last of them. -/
def printNeed (heap : Heap) (seen opened : Nat) : Nat :=
  (heap.records.size - seen) * (heap.closures.size + 1) + (heap.closures.size - opened) + 1

theorem printNeed_record (heap : Heap) {least seen : Nat} (opened : Nat) (more : least ≤ seen)
    (inRange : seen < heap.records.size) :
    heap.printNeed (seen + 1) 0 < heap.printNeed least opened := by
  have fewer : heap.records.size - seen ≤ heap.records.size - least := by omega
  have levels : (heap.records.size - (seen + 1)) * (heap.closures.size + 1) +
      (heap.closures.size + 1) ≤ (heap.records.size - least) * (heap.closures.size + 1) := by
    rw [← Nat.succ_mul]
    exact Nat.mul_le_mul_right _ (by omega)
  unfold printNeed
  omega

theorem printNeed_function (heap : Heap) (seen : Nat) {opened : Nat}
    (inRange : opened < heap.closures.size) :
    heap.printNeed seen (opened + 1) < heap.printNeed seen opened := by
  unfold printNeed
  omega

theorem run_printObject_record (heap : Heap) (fuel : Nat) (id : RecordId) (pass : PrintPass) :
    (heap.printObject (fuel + 1) (.record id)).run pass =
      if pass.contains id then some (circularReference, pass)
      else (do return "[" ++
        (← printFields (heap.printObject fuel) (heap.record id).fields) ++ "]" :
        PrintM String).run (id :: pass) := by
  rw [printObject, StateT.run_bind]
  change (if pass.contains id then _ else _ : PrintM String).run pass = _
  split <;> rfl

/-- Paired records print alike when all paired objects do after one more record. -/
theorem Parallel.agree_printRecord (parallel : heap.Parallel pairing other) {fuel fuel' least : Nat}
    (inside : ∀ seen, least ≤ seen → seen < heap.records.size → seen < other.records.size →
      ∀ handle image, handle.Match pairing image → PrintM.Agree sure pairing (seen + 1)
        (heap.printObject fuel handle) (other.printObject fuel' image))
    {id image : RecordId} (paired : pairing.record id image) :
    PrintM.Agree sure pairing least (heap.printObject (fuel + 1) (.record id))
      (other.printObject (fuel' + 1) (.record image)) := by
  intro pass pass' passes once more
  have same := contains_eq_of_related Pairing.biUnique_record passes paired
  rw [run_printObject_record, run_printObject_record, ← same]
  split
  · exact fun _ => ⟨_, pass, pass', rfl, rfl, passes, once, Nat.le_refl _⟩
  · rename_i unseen
    intro ends
    rw [List.contains_iff_mem] at unseen
    have lengths := passes.length_eq
    have passes := List.Forall₂.cons paired passes
    have once := List.nodup_cons.mpr ⟨unseen, once⟩
    obtain ⟨few, few'⟩ := parallel.length_le passes once
    rw [List.length_cons] at few few'
    have fields := (parallel.record paired).fields.agree_print
      (inside pass.length more few (lengths ▸ few'))
    obtain ⟨text, later, later', runs, runs', passes, once, grows⟩ :=
      (fields.bind fun _ => PrintM.agree_pure _) _ _ passes once (Nat.le_refl _) ends
    exact ⟨text, later, later', runs, runs', passes, once, Nat.le_of_succ_le grows⟩

/-- Paired functions print alike when the objects in their bodies do. -/
theorem Parallel.agree_printFunction (parallel : heap.Parallel pairing other)
    {fuel fuel' least : Nat} {id image : FunctionId} (paired : pairing.function id image)
    (inside : ∀ handle ∈ (heap.closure id).body.handles (fun _ => false), ∀ image,
      handle.Match pairing image → PrintM.Agree sure pairing least (heap.printObject fuel handle)
        (other.printObject fuel' image)) :
    PrintM.Agree sure pairing least (heap.printObject (fuel + 1) (.function id))
      (other.printObject (fuel' + 1) (.function image)) := by
  have contents := parallel.closure paired
  rw [printObject, printObject, contents.signature]
  have formals := (other.closure image).signature.handles_toAtoms
  refine PrintM.Agree.bind (Atom.agree_printItems (Atom.matchAll_self _ formals) ?_) fun _ =>
    PrintM.Agree.bind (contents.body.agree_print inside) fun _ => PrintM.agree_pure _
  intro handle mem
  rw [formals] at mem
  cases mem

/-! ## Functions inside one another -/

/-- A function that stands in the body of another. -/
def InBody (heap : Heap) (inner outer : FunctionId) : Prop :=
  .function inner ∈ (heap.closure outer).body.handles fun _ => false

theorem not_rel_self_of_acc {α : Type} {relation : α → α → Prop} {item : α}
    (finite : Acc relation item) :
    ¬ relation item item := by
  induction finite with
  | intro item _ ih => exact fun loop => ih item loop loop

/-- The bodies of a function that was printed, and of the functions inside it, do not go on without
end: each takes some of the bound. -/
theorem acc_of_isSome_print {fuel : Nat} {id : FunctionId} {pass : PrintPass}
    (ends : ((heap.printObject fuel (.function id)).run pass).isSome) : Acc heap.InBody id := by
  induction fuel generalizing id pass with
  | zero => cases ends
  | succ fuel ih =>
      refine .intro id fun inner mem => ?_
      rw [printObject, StateT.run_bind] at ends
      obtain ⟨⟨_, middle⟩, _, ends⟩ := exists_of_isSome_bind ends
      obtain ⟨pass, ends⟩ := Atom.isSome_object_of_print _ (isSome_of_bind ends) _ mem
      exact ih ends

/-- Bodies that end on one side end on the other. -/
theorem Parallel.acc_of_image (parallel : heap.Parallel pairing other) {id image : FunctionId}
    (ends : Acc other.InBody image) (paired : pairing.function id image) : Acc heap.InBody id := by
  induction ends generalizing id with
  | intro image _ ih =>
      refine .intro id fun inner mem => ?_
      obtain ⟨_, mem', same⟩ := exists_right_of_mem ((parallel.closure paired).body.handles _) mem
      cases same with
      | function paired => exact ih _ mem' paired

theorem Match.acc (matched : heap.Match pairing other) {id image : FunctionId}
    (paired : pairing.function id image) : Acc heap.InBody id := by
  obtain ⟨rank, layered⟩ := matched.layered
  induction below : rank id using Nat.strongRecOn generalizing id image with
  | _ _ ih =>
      refine .intro id fun inner mem => ?_
      obtain ⟨_, _, same⟩ := exists_right_of_mem ((matched.closure paired).body.handles _) mem
      cases same with
      | function paired' => exact ih _ (below ▸ layered paired inner mem) paired' rfl

/-- Paired objects print alike where both bounds allow for the nesting that is to come. -/
theorem Parallel.agree_printObject (parallel : heap.Parallel pairing other)
    (settled : sure → ∀ {id image}, pairing.function id image → Acc heap.InBody id)
    {fuel fuel' least : Nat} {opened opened' : List FunctionId}
    (outside : List.Forall₂ pairing.function opened opened') (once : opened.Nodup)
    {handle image : Handle} (same : handle.Match pairing image)
    (inside : ∀ inner, handle = .function inner → ∀ id ∈ opened,
      Relation.TransGen heap.InBody inner id)
    (enough : heap.printNeed least opened.length ≤ fuel)
    (enough' : other.printNeed least opened.length ≤ fuel') :
    PrintM.Agree sure pairing least (heap.printObject fuel handle)
      (other.printObject fuel' image) := by
  induction fuel generalizing fuel' least opened opened' handle image with
  | zero =>
      unfold printNeed at enough
      omega
  | succ fuel ih =>
      cases fuel' with
      | zero =>
          unfold printNeed at enough'
          omega
      | succ fuel' =>
          cases same with
          | record paired =>
              refine parallel.agree_printRecord (fun seen more few few' handle image same => ?_)
                paired
              have step := heap.printNeed_record opened.length more few
              have step' := other.printNeed_record opened.length more few'
              -- No function is open inside the record yet, so any may come next.
              refine ih .nil List.nodup_nil same (fun _ _ id mem => by cases mem) ?_ ?_
              · rw [List.length_nil]
                omega
              · rw [List.length_nil]
                omega
          | @function id image paired =>
              intro pass pass' passes distinct more ends
              have finite : Acc heap.InBody id := by
                rcases ends with isSure | ends | ends
                · exact settled isSure paired
                · exact acc_of_isSome_print ends
                · exact parallel.acc_of_image (acc_of_isSome_print ends) paired
              have new : id ∉ opened := fun mem =>
                not_rel_self_of_acc finite.transGen (inside id rfl id mem)
              have opens := List.Forall₂.cons paired outside
              have once := List.nodup_cons.mpr ⟨new, once⟩
              obtain ⟨few, few'⟩ := parallel.functions_le opens once
              rw [← opens.length_eq] at few'
              have step := heap.printNeed_function least few
              have step' := other.printNeed_function least few'
              refine parallel.agree_printFunction paired (fun handle mem image same => ?_)
                pass pass' passes distinct more ends
              refine ih opens once same ?_ ?_ ?_
              · rintro inner rfl outer mem'
                rcases List.mem_cons.mp mem' with rfl | earlier
                · exact .single mem
                · exact .trans (.single mem) (inside id rfl outer earlier)
              · rw [List.length_cons]
                omega
              · rw [List.length_cons]
                omega

theorem printNeed_le_printDepth (heap : Heap) : heap.printNeed 0 0 ≤ heap.printDepth := by
  unfold printNeed printDepth
  rw [Nat.add_mul, Nat.sub_zero]
  omega

/-- In one pass, matching atoms of parallel heaps print alike. -/
theorem Parallel.agree_printIn (parallel : heap.Parallel pairing other)
    (settled : sure → ∀ {id image}, pairing.function id image → Acc heap.InBody id)
    {atom image : Atom} (same : atom.Match pairing image) :
    PrintM.Agree sure pairing 0 (heap.printIn atom) (other.printIn image) :=
  same.agree_print fun _ _ _ same =>
    parallel.agree_printObject settled .nil List.nodup_nil same (fun _ _ id mem => by cases mem)
      heap.printNeed_le_printDepth other.printNeed_le_printDepth

/-- Atoms of matching heaps can be printed. -/
theorem Match.isSome_printIn (matched : heap.Match pairing other) {atom image : Atom}
    (same : atom.Match pairing image) : ((heap.printIn atom).run []).isSome := by
  obtain ⟨text, _, _, runs, _⟩ := matched.parallel.agree_printIn (fun _ => matched.acc) same [] []
    .nil List.nodup_nil (Nat.zero_le _) (.inl trivial)
  rw [runs]
  rfl

/-- Matching atoms of parallel heaps have the same text. -/
theorem Parallel.print_eq (parallel : heap.Parallel pairing other) {atom image : Atom}
    (same : atom.Match pairing image) : heap.print atom = other.print image := by
  have agree : PrintM.Agree False pairing 0 (heap.printIn atom) (other.printIn image) :=
    parallel.agree_printIn False.elim same
  have agree := agree [] [] .nil List.nodup_nil (Nat.zero_le _)
  unfold Heap.print
  cases ran : (heap.printIn atom).run [] with
  | some printed =>
      obtain ⟨text, _, _, runs, runs', _⟩ := agree (.inr (.inl (by rw [ran]; rfl)))
      rw [ran] at runs
      cases runs
      rw [runs']
  | none =>
      cases ran' : (other.printIn image).run [] with
      | some printed =>
          obtain ⟨_, _, _, runs, _⟩ := agree (.inr (.inr (by rw [ran']; rfl)))
          rw [ran] at runs
          cases runs
      | none => rfl

end Heap

end RecordLisp
