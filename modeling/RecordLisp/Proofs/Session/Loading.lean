import RecordLisp.Proofs.Eval.Confined
import RecordLisp.Proofs.Image.Restore
import RecordLisp.Proofs.Session.Handles

/-!
# Loading is all or nothing

The program of a saved record changes the heap at every step of the way, and a limit on gas may stop
it at any of them. Still a session either takes over a record that mirrors the saved one, or is left
with its scopes and all that they lead to as they were. The program changes objects only that it
made itself, and neither allocations nor collections touch what the scopes of the session lead to.

Which builtins a session has besides the core, and whether its bound on evaluation exceeds the depth
of the program, makes no difference: a limit on gas stops the program before it meets the bound.
-/

namespace RecordLisp

open Effect EvalM

/-! ## What a program makes -/

/-- A mirror whose objects are in use leads to objects in use only. -/
theorem Pairing.Mirrors.grounded {pairing : Pairing} {heap other : Heap} {root copy : RecordId}
    (mirrors : pairing.Mirrors heap root other copy)
    (records : ∀ id image, pairing.record id image → other.HasRecord image)
    (functions : ∀ id image, pairing.function id image → other.HasClosure image) :
    other.Grounded [.record copy] := by
  -- The copy leads to images, and through the bodies of functions to the literal records in them.
  let Literal (handle : Handle) : Prop := ∃ ids id, handle = .record id ∧ id ∈ ids ∧
    other.Closed ids ∧ ∀ id ∈ ids, other.HasRecord id
  have known : ∀ handle, other.Leads [.record copy] handle →
      (∃ original : Handle, original.Match pairing handle) ∨ Literal handle := by
    intro handle leads
    induction leads with
    | root mem =>
        cases List.mem_singleton.mp mem
        exact .inl ⟨_, .record mirrors.rooted⟩
    | step _ edge ih =>
        obtain ⟨original, paired⟩ | ⟨ids, id, rfl, mem, closed, used⟩ := ih
        · cases paired with
          | record paired =>
              have contents := mirrors.records paired
              have references :=
                List.rel_append contents.parentHandles (contents.valueHandles fun _ => false)
              obtain ⟨next, _, paired⟩ := exists_left_of_mem references edge
              exact .inl ⟨next, paired⟩
          | function paired =>
              obtain rfl | inBody := List.mem_cons.mp edge
              · exact .inl ⟨_, .record (mirrors.scopes paired)⟩
              · obtain ⟨tree, _, ids, _, unfolds, used⟩ := mirrors.bodies paired
                obtain ⟨id, mem, same, _⟩ := unfolds.literal_of_mem_handles _ _ inBody
                exact .inr ⟨ids, id, same, mem, unfolds.closed, used⟩
        · obtain ⟨inner, inside, same⟩ := closed id mem _ edge
          exact .inr ⟨ids, inner, same, inside, closed, used⟩
  intro handle leads
  obtain ⟨original, paired⟩ | ⟨ids, id, rfl, mem, _, used⟩ := known handle leads
  · cases paired with
    | record paired => exact records _ _ paired
    | function paired => exact functions _ _ paired
  · exact used id mem

/-- What is read leads to objects in use only. -/
theorem Source.grounded_read {source : Source} {target after : Heap} {code : Atom}
    (read : source.read target = (.ok code, after)) : after.Grounded [code] := by
  obtain ⟨pairing, _, matched, related⟩ := (Heap.match_empty target target).read source
  rw [read] at matched related
  cases related with
  | ok same => exact matched.grounded (.cons same .nil)

/-- The program of a saved record, evaluated with the bound that the gas of a machine gives, makes a
mirror of what the record leads to or runs out of gas. All that was in use before is kept. -/
theorem Image.exists_settles_program {heap : Heap} {root : RecordId} (savable : heap.Savable root) :
    ∃ text tree, heap.save root = .ok text ∧ Grammar.Program text.toList tree ∧
      ∀ registry : Registry, registry.Has Pack.core → ∀ (target : Heap) (machine : Machine),
        machine.heap = (tree.build target).2 →
        (∀ limit, machine.gasLimit = some limit → machine.steps ≤ limit.toNat) →
        (¬ machine.RunsOut → tree.depth < machine.fuel) →
        target.Keeps (tree.build target).2 ∧
        ∃ copy after, (tree.build target).2.Keeps after ∧ after.Grounded [.record copy] ∧
          (∃ pairing : Pairing, pairing.Mirrors heap root after copy) ∧
          ((∃ steps, Gives (registry.eval machine.fuel (tree.build target).1) machine (.record copy)
              { machine with heap := after, steps }) ∨
            RunsDry (tree.build target).2 (registry.eval machine.fuel (tree.build target).1)
              machine) := by
  obtain ⟨text, tree, saved, isProgram, works⟩ := exists_does_program savable
  refine ⟨text, tree, saved, isProgram, fun registry core target machine started below deep => ?_⟩
  obtain ⟨confined, fuel, core, enough, agrees⟩ :=
    Registry.exists_enough Pack.composed_core core below deep
  obtain ⟨kept, copy, after, does, pairing, mirrors, records, functions⟩ :=
    works confined core fuel machine.scope target enough
  obtain ⟨keptAfter, settles⟩ := does (.refl _)
  have settled := settles machine rfl started
  have same := agrees (tree.build target).1 (by
    rcases settled with ⟨steps, given⟩ | ⟨limit, _, _, _, _, stopped⟩
    · rw [given]
      exact nofun
    · rw [stopped]
      exact nofun)
  refine ⟨kept, copy, after, keptAfter, mirrors.grounded records functions, ⟨pairing, mirrors⟩, ?_⟩
  unfold Gives RunsDry
  rw [same]
  exact settled

/-! ## Requests to load -/

/-- The heap in which a scope refers to itself under the name of the settings. -/
def Config.bindSelf (config : Config) (scope : RecordId) (heap : Heap) : Heap :=
  match config.selfBinding with
  | some name => heap.insert scope name (.record scope)
  | none => heap

section BindSelf

variable {config : Config} {scope : RecordId} {heap after : Heap}

theorem Config.get?_bindSelf {name : String} (named : config.selfBinding = some name)
    (used : heap.HasRecord scope) :
    ((config.bindSelf scope heap).record scope).get? name = some (.record scope) := by
  rw [bindSelf, named]
  change ((heap.modifyRecord scope _).record scope).get? name = _
  rw [Heap.record_modifyRecord_self heap _ used.1]
  exact Record.get?_insert_self _ _ _

/-- A scope that refers to itself leads to nothing new. -/
theorem Heap.KeepsGraph.bindSelf (keeps : heap.KeepsGraph [.record scope] after)
    (grounded : heap.Grounded [.record scope]) :
    (config.bindSelf scope heap).KeepsGraph [.record scope] (config.bindSelf scope after) := by
  unfold Config.bindSelf
  split
  · refine keeps.insert (fun handle mem => ?_) grounded
    cases List.mem_singleton.mp mem
    exact leads_of_mem_record List.mem_cons_self
  · exact keeps

end BindSelf

namespace Session

variable {session : Session}

theorem bindSelf_eq (session : Session) :
    session.bindSelf = session.modifyHeap (session.config.bindSelf session.global) := by
  unfold bindSelf Config.bindSelf
  cases session.config.selfBinding <;> rfl

/-- The session after an evaluation that left another heap and took some steps. -/
def ran (session : Session) (heap : Heap) (steps : Nat) : Session :=
  { session with machine := { session.machine with heap, steps } }

/-- The machine on which a session evaluates what was read into a heap. -/
def started (session : Session) (heap : Heap) : Machine :=
  { session.machine with heap, steps := 0, scope := session.global }

/-- Where gas cannot run out, the bound on evaluation is enough for every text that fits into
memory. -/
theorem depth_lt_fuel {text : String} {tree : Tree} (isProgram : Grammar.Program text.toList tree)
    (unbounded : ¬ session.machine.RunsOut) (fits : text.length < 0x8000000000000000)
    (heap : Heap) : tree.depth < (session.started heap).fuel := by
  have twice := isProgram.depth_le
  rw [String.length_toList] at twice
  cases limited : session.machine.gasLimit with
  | none =>
      simp only [Machine.fuel, started, limited]
      omega
  | some limit =>
      have great : UInt64.size ≤ limit.toNat + 1 :=
        Nat.le_of_not_lt fun counts => unbounded ⟨limit, limited, counts⟩
      have enough : limit.toNat < _ :=
        (session.started heap).lt_steps_add_fuel limited (Nat.zero_le _)
      have start : (session.started heap).steps = 0 := rfl
      have size : UInt64.size = 0x10000000000000000 := rfl
      omega

theorem perform_runSource_of_outcome {source : Source} {code : Atom} {base heap : Heap}
    {result : Except Stop Atom} {steps : Nat} (read : source.read session.heap = (.ok code, base))
    (evaluated : outcome (session.registry.eval (session.started base).fuel code)
      (session.started base) = (result, { session.started base with heap, steps })) :
    session.perform (SessionM.runSource source) =
      (result.mapError SessionError.ofStop,
        (session.ran heap steps).collect (code :: result.toOption.toList)) := by
  have evaluates : (session.modifyHeap fun _ => base).evaluate code =
      ((outcome (session.registry.eval (session.started base).fuel code) (session.started base)).1,
        { session with machine :=
          { (outcome (session.registry.eval (session.started base).fuel code)
            (session.started base)).2 with scope := session.machine.scope } }) := rfl
  rw [evaluated] at evaluates
  rw [perform_runSource, perform_read, read]
  change (session.modifyHeap fun _ => base).perform (SessionM.eval code) = _
  rw [perform_eval, evaluates]
  rfl

theorem perform_loadSource_of_error {source : Source} {error : SessionError} {after : Session}
    (failed : session.perform (SessionM.runSource source) = (.error error, after)) :
    session.perform (SessionM.loadSource source) = (.error error, after) :=
  outcome_bind_of_error failed

theorem perform_loadSource_of_record {source : Source} {record : RecordId} {after : Session}
    (given : session.perform (SessionM.runSource source) = (.ok (.record record), after)) :
    session.perform (SessionM.loadSource source) = (.ok record, (after.adopt record).collect []) :=
  outcome_bind_of_ok given

/-- A session that took over a copy of a saved record as its global and its active scope. -/
structure Adopts (session : Session) (heap : Heap) (root copy : RecordId) (after : Session) :
    Prop where
  /-- apart from the scopes, the heap and the steps taken the session is the same -/
  rest : after = { session with
    global := copy
    machine := { session.machine with
      scope := copy, heap := after.heap, steps := after.machine.steps } }
  /-- the copy refers to itself under the name of the settings -/
  self : ∀ name, session.config.selfBinding = some name → after.global? name = some (.record copy)
  /-- apart from this field the copy leads to a mirror of what the saved record leads to -/
  graph : ∃ (rebuilt : Heap) (pairing : Pairing), pairing.Mirrors heap root rebuilt copy ∧
    (session.config.bindSelf copy rebuilt).KeepsGraph [.record copy] after.heap

/-- A session in which all that the scopes lead to is as it was. -/
structure Spares (session after : Session) : Prop where
  /-- apart from the heap and the steps taken the session is the same -/
  rest : after = { session with
    machine := { session.machine with heap := after.heap, steps := after.machine.steps } }
  graph : session.heap.KeepsGraph (session.roots []) after.heap

theorem adopts_of_mirrors {heap rebuilt : Heap} {root copy : RecordId} {pairing : Pairing}
    {code : Atom} {steps : Nat} (mirrors : pairing.Mirrors heap root rebuilt copy)
    (grounded : rebuilt.Grounded (session.roots [code, .record copy])) :
    let last := (session.ran rebuilt steps).collect [code, .record copy]
    session.Adopts heap root copy ((last.adopt copy).collect []) := by
  intro last
  have led {other : Heap} : other.Leads [.record copy] (.record copy) :=
    Heap.leads_of_mem_record List.mem_cons_self
  have groundedCopy : rebuilt.Grounded [.record copy] := grounded.mono (by simp [roots])
  have collected : rebuilt.KeepsGraph [.record copy] last.heap := grounded.collect (by simp [roots])
  have bound : (session.config.bindSelf copy rebuilt).KeepsGraph [.record copy]
      (session.config.bindSelf copy last.heap) := collected.bindSelf groundedCopy
  have twice : (session.config.bindSelf copy last.heap).Grounded [.record copy, .record copy] :=
    bound.grounded.mono (by simp)
  have kept := bound.trans (twice.collect (List.subset_cons_self _ _))
  unfold Session.adopt
  rw [bindSelf_eq]
  refine ⟨rfl, fun name named => ?_, rebuilt, pairing, mirrors, kept⟩
  exact (congrArg (·.get? name) (kept.record copy led)).trans
    (Config.get?_bindSelf named (groundedCopy _ led))

theorem spares_of_keeps {base dry : Heap} {code : Atom} {steps : Nat}
    (kept : session.heap.KeepsGraph (session.roots []) base)
    (grounded : base.Grounded (session.roots [code])) (keptDry : base.Keeps dry) :
    session.Spares ((session.ran dry steps).collect [code]) := by
  have fewer : session.roots [] ⊆ session.roots [code] := by simp [roots]
  have groundedDry := (keptDry.graph grounded).grounded
  refine ⟨rfl, ?_⟩
  exact (kept.trans (keptDry.graph (grounded.mono fewer))).trans (groundedDry.collect fewer)

/-- A session that loads the program of a saved record either takes over a copy of it, or runs out
of gas and is left as it was. Nothing is asked of the session but that it has the core builtins and
that its scopes lead to objects in use, and where gas cannot run out that the text fits into
memory. -/
theorem load_all_or_nothing {heap : Heap} {root : RecordId} {text : String}
    (savable : heap.Savable root) (saved : heap.save root = .ok text)
    (core : session.registry.Has Pack.core) (grounded : session.heap.Grounded (session.roots []))
    (fits : ¬ session.machine.RunsOut → text.length < 0x8000000000000000) :
    (∃ copy after, session.perform (SessionM.load text) = (.ok copy, after) ∧
      session.Adopts heap root copy after) ∨
    ∃ limit after, session.machine.gasLimit = some limit ∧
      session.perform (SessionM.load text) = (.error (.eval (.gasExhausted limit)), after) ∧
      session.Spares after := by
  obtain ⟨text', tree, saved', isProgram, settles⟩ := Image.exists_settles_program savable
  obtain rfl : text = text' := Except.ok.inj (saved.symm.trans saved')
  have read : (Source.anonymous text).read session.heap = (.ok _, _) :=
    Source.read_of_program isProgram
  have readCode := Source.grounded_read read
  have deep unbounded :=
    depth_lt_fuel isProgram unbounded (fits unbounded) (tree.build session.heap).2
  obtain ⟨kept, copy, rebuilt, keptRebuilt, groundedCopy, ⟨pairing, mirrors⟩, settled⟩ :=
    settles session.registry core session.heap (session.started (tree.build session.heap).2) rfl
      (fun _ _ => Nat.zero_le _) deep
  generalize tree.build session.heap = built at *
  obtain ⟨code, base⟩ := built
  have keptRoots := kept.graph grounded
  have groundedBase : base.Grounded (session.roots [code]) := keptRoots.grounded.append readCode
  obtain ⟨steps, given⟩ | ⟨limit, dry, steps, limited, keptDry, stopped⟩ := settled
  · have loaded := perform_loadSource_of_record (perform_runSource_of_outcome read given)
    have groundedAll := (keptRebuilt.graph groundedBase).grounded.append groundedCopy
    exact .inl ⟨copy, _, loaded, adopts_of_mirrors mirrors groundedAll⟩
  · have failed := perform_loadSource_of_error (perform_runSource_of_outcome read stopped)
    exact .inr ⟨limit, _, limited, failed, spares_of_keeps keptRoots groundedBase keptDry⟩

/-- A new session has the core builtins. -/
theorem has_core_create {config : Config} {packs : List Pack} {files : Files}
    {random : RandomSource} (created : create config packs files random = .ok session) :
    session.registry.Has Pack.core := by
  obtain ⟨registry, filled, rfl⟩ := create_eq_ok created
  obtain ⟨has, _⟩ := Registry.has_of_registerAll filled
  rw [bindSelf_registry]
  exact fun declaration native mem => has declaration native (List.mem_append_left _ mem)

theorem gasLimit_create {config : Config} {packs : List Pack} {files : Files}
    {random : RandomSource} (created : create config packs files random = .ok session) :
    session.machine.gasLimit = config.gasLimit := by
  obtain ⟨registry, _, rfl⟩ := create_eq_ok created
  unfold bindSelf
  split <;> rfl

/-- A record that holds itself, loaded into a new session, and into one whose limit stops the
program after it made the new record and before it filled it. -/
theorem load_all_or_nothing_knot :
    let heap := (Heap.empty.allocRecord .empty).2.insert ⟨0⟩ "me" (.record ⟨0⟩)
    let text := "(using\n  (atoms (array 1 []))\n  (funcs (list\n  ))\n  (last\n" ++
      "    (multi-set (index-get atoms 0) (me (index-get atoms 0)))\n" ++
      "    (index-get atoms 0)\n  )\n)"
    heap.Savable ⟨0⟩ ∧ heap.save ⟨0⟩ = .ok text ∧
      (∃ session copy after, create .standard [Pack.standard] .empty .least = .ok session ∧
        session.perform (SessionM.load text) = (.ok copy, after) ∧
        session.Adopts heap ⟨0⟩ copy after) ∧
      ∃ session after, create { gasLimit := some 7 } [] .empty .least = .ok session ∧
        session.perform (SessionM.load text) = (.error (.eval (.gasExhausted 7)), after) ∧
        session.Spares after := by
  intro heap text
  have fields : (heap.record ⟨0⟩).fields = [("me", .record ⟨0⟩)] := rfl
  have alone : ∀ handle, heap.Saved ⟨0⟩ handle → handle = .record ⟨0⟩ := by
    intro handle saved
    induction saved with
    | root => rfl
    | value _ field mem ih =>
        cases ih
        rw [fields] at field
        cases List.mem_singleton.mp field
        exact List.mem_singleton.mp mem
    | parent _ isParent ih =>
        cases ih
        cases isParent
    | scope _ ih => cases ih
  have savable : heap.Savable ⟨0⟩ := by
    refine ⟨fun handle saved => ?_, fun id saved => ?_, fun id saved name value field => ?_,
      fun id saved => ?_, fun id saved => ?_, fun id saved => ?_, fun handles once all => ?_⟩
    · cases alone handle saved
      exact Nat.one_pos
    · cases alone _ saved
      rfl
    · cases alone _ saved
      rw [fields] at field
      cases List.mem_singleton.mp field
      exact ⟨.inl (by decide), rfl⟩
    · cases alone _ saved
    · cases alone _ saved
    · cases alone _ saved
    · have few : handles.length ≤ [Handle.record ⟨0⟩].length :=
        once.length_le_of_subset fun handle mem => by simpa using alone handle (all handle mem)
      exact Nat.lt_of_le_of_lt few (by decide)
  have saved : heap.save ⟨0⟩ = .ok text := by decide +kernel
  have stops : (create { gasLimit := some 7 } [] .empty .least).map
      (fun session => (session.perform (SessionM.load text)).1.isOk) =
        .ok false := by decide +kernel
  refine ⟨savable, saved, ?_, ?_⟩
  · obtain ⟨session, created⟩ := exists_create_standard
    have reached : Reached Holds _ _ session [] := .create created
    have grounded := (reached.sound fun entry mem => by simpa using mem).grounded
    obtain ⟨copy, after, loaded⟩ | ⟨limit, _, limited, _⟩ :=
      load_all_or_nothing savable saved (has_core_create created)
        grounded fun _ => by decide +kernel
    · exact ⟨session, copy, after, created, loaded⟩
    · rw [gasLimit_create created] at limited
      cases limited
  · cases created : create { gasLimit := some 7 } [] .empty .least with
    | error error =>
        rw [created] at stops
        cases stops
    | ok session =>
        have stopped : Except.ok (session.perform (SessionM.load text)).1.isOk = .ok false :=
          created ▸ stops
        have limit := gasLimit_create created
        have reached : Reached Holds _ _ session [] := .create created
        have grounded := (reached.sound (by simp)).grounded
        obtain ⟨copy, after, loaded, _⟩ | ⟨_, after, limited, failed⟩ :=
          load_all_or_nothing savable saved (has_core_create created) grounded fun unbounded =>
            absurd ⟨7, limit, by decide⟩ unbounded
        · rw [loaded] at stopped
          cases stopped
        · cases limit.symm.trans limited
          exact ⟨session, after, rfl, failed⟩

end Session

end RecordLisp
