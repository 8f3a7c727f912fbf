import Workflow.Proofs.Batching
import Workflow.Proofs.Mapping
import Workflow.Proofs.Verbs
import Workflow.Proofs.WellFormed

/-!
# Where a sequence refuses an element

A sequence finds an element that is no program when its turn comes: while the sequence is built,
if all the elements before it have finished, and in the middle of its run, after their operations,
if one of them waits.  A sequence of queries looks at all its elements first and refuses the
first one that is neither a query nor a program before anything is built.  A traversal makes all
its calls before it puts the answers in sequence (`Host.sequence_refuses`).

The run of a sequence is the run of its members one after the other, as for
`Host.drive_sequenced`; here this is needed for all three drivers.
-/

namespace Workflow

variable {κ β σ : Type}

namespace Query

/-- Whether a value may be an element of a sequence of queries. -/
def accepts : Value κ → Bool
  | .query _ => true
  | value => value.isProgram

/-- The program that an element stands for. -/
def unwrapped : Value κ → Value κ
  | .query program => program
  | value => value

theorem asProgram_of_accepts {q : Value κ} (h : accepts q = true) :
    asProgram q = .ok (unwrapped q) := by
  cases q with
  | query program | terminal value | pending waiting => rfl
  | _ => cases h

theorem asProgram_of_not_accepts {q : Value κ} (h : accepts q = false) :
    asProgram q = .error (.invalidProgram q) := by
  cases q with
  | query program | terminal value | pending waiting => cases h
  | _ => rfl

/-- All elements are looked at, and the first one that is refused is reported. -/
theorem mapM_asProgram_eq (queries : List (Value κ)) :
    queries.mapM asProgram =
      match queries.find? fun q => !accepts q with
      | some bad => .error (.invalidProgram bad)
      | none => .ok (queries.map unwrapped) := by
  -- From the front, so that what is refused further on counts only if nothing before it is.
  induction queries with
  | nil => rfl
  | cons q rest ih =>
      rw [List.mapM_cons, ih]
      cases hq : accepts q with
      | false =>
          rw [List.find?_cons_of_pos (by simp [hq]), asProgram_of_not_accepts hq]
          rfl
      | true =>
          rw [List.find?_cons_of_neg (by simp [hq]), asProgram_of_accepts hq]
          cases rest.find? fun q => !accepts q <;> rfl

end Query

namespace Host

variable {host : Host κ β σ} {driver : Driver} {b : Backend (Value κ)} {bad : Value κ}

/-! ## Building a sequence -/

/-- An element that is no program is found at once behind programs that have finished. -/
theorem sequenced_refused (lawful : host.Lawful) (values after : List (Value κ))
    (hbad : bad.isProgram = false) :
    host.sequenced (values.map .terminal ++ bad :: after) [] = .fail (.invalidProgram bad) := by
  have hpassed : host.sequenced (values.map .terminal ++ bad :: after) [] =
      host.sequenced (bad :: after) (values.reverse ++ []) :=
    congrArg host.fully (funext fun d => sequenceFrom_finished d values (bad :: after) [])
  rw [hpassed, sequenced_cons lawful]
  exact (walks_continued lawful _).invalid bad hbad

/-- It is not looked at behind a program that waits. -/
theorem sequenced_waiting (values : List (Value κ)) (op : Operation (Value κ))
    (rest after : List (Value κ)) :
    host.sequenced ((values.map .terminal ++ .pending (.operation op) :: rest) ++ bad :: after) [] =
      pure (.pending (.operation
        (op.followedBy (.fn (.sequenceRest (rest ++ bad :: after) (values.reverse ++ [])))))) := by
  have hbuilt : ∀ d : Dispatch κ β,
      sequenceFrom d ((values.map .terminal ++ .pending (.operation op) :: rest) ++ bad :: after) [] =
        pure (.pending (.operation
          (op.followedBy (.fn (.sequenceRest (rest ++ bad :: after) (values.reverse ++ [])))))) := by
    intro d
    rw [List.append_assoc, sequenceFrom_finished, List.cons_append]
    exact sequenceFrom_waiting d op _ _
  simp only [sequenced, hbuilt]
  exact fully_const host _

/-- Behind programs that are ready, an element that is no program is found at once, or not yet. -/
theorem sequenced_refused_cases (lawful : host.Lawful) {before : List (Value κ)}
    (hbefore : ∀ p ∈ before, p.Ready) (hbad : bad.isProgram = false) (after : List (Value κ)) :
    ((∀ p ∈ before, ∃ value, p = .terminal value) ∧
        host.sequenced (before ++ bad :: after) [] = .fail (.invalidProgram bad)) ∨
      ((∃ p ∈ before, ∀ value, p ≠ .terminal value) ∧
        ∃ waiting, host.sequenced (before ++ bad :: after) [] = pure (.pending waiting)) := by
  rcases ready_cases hbefore with ⟨values, rfl⟩ | ⟨values, op, rest, rfl⟩
  · refine Or.inl ⟨fun p hp => ?_, sequenced_refused lawful values after hbad⟩
    obtain ⟨value, _, rfl⟩ := List.mem_map.1 hp
    exact ⟨value, rfl⟩
  · refine Or.inr ⟨⟨.pending (.operation op), by simp, fun value h => ?_⟩, _,
      sequenced_waiting values op rest after⟩
    cases h

/-- Elements that are programs are refused for what they wait on alone. -/
theorem sequenced_fault_cases (lawful : host.Lawful) {programs : List (Value κ)}
    (hprograms : ∀ p ∈ programs, p.isProgram = true) :
    ∀ {results : List (Value κ)} {w v : World κ β} {cause : Fault κ},
      (host.sequenced programs results).run w = .fault cause v →
        ∃ waiting, cause = .unknownOperation waiting := by
  -- A program that has finished hands over to the rest; any other one decides.
  induction programs with
  | nil =>
      intro results w v cause h
      rw [sequenced_nil] at h
      cases h
  | cons p rest ih =>
      intro results w v cause h
      have hwalks : host.Walks fun p => host.continued p (.fn (.sequenceRest rest results)) :=
        walks_continued lawful _
      rw [sequenced_cons lawful] at h
      rcases program_cases p with ⟨value, rfl⟩ | ⟨op, rfl⟩ | ⟨waiting, rfl, hwaiting⟩ | hp
      · have hvalue : host.continued (.terminal value) (.fn (.sequenceRest rest results)) =
            host.sequenced rest (value :: results) := result_sequenceRest lawful rest results value
        rw [hvalue] at h
        exact ih (fun q hq => hprograms q (List.mem_cons_of_mem _ hq)) h
      · rw [continued_waiting] at h
        cases h
      · rw [hwalks.refused waiting hwaiting] at h
        cases h
        exact ⟨waiting, rfl⟩
      · rw [hprograms p List.mem_cons_self] at hp
        cases hp

/-- No stop signal is raised while a sequence is built. -/
theorem sequenced_unstopped (lawful : host.Lawful) :
    ∀ programs results : List (Value κ), (host.sequenced programs results).Unstopped
  | [], results => by
      rw [sequenced_nil]
      rfl
  | p :: rest, results => by
      rw [sequenced_cons lawful]
      refine continued_unstopped lawful (fun value => ?_) p
      rw [result_sequenceRest lawful]
      exact sequenced_unstopped lawful rest (value :: results)

/-! ## Running a sequence -/

/-- Under every driver a sequence drives its members one after the other. -/
theorem drive_sequenced_always (lawful : host.Lawful) (ps results : List (Value κ)) {w : World κ β}
    (hps : host.AskingAll driver b ps w) :
    ((host.sequenced ps results >>= host.drive driver b).run w).mapWorld World.unlogged =
      ((ps.mapM (host.drive driver b) >>= fun values =>
        pure (.list (results.reverse ++ values))).run w).mapWorld World.unlogged := by
  refine drive_sequenced_of_followed lawful (fun p rest results w hp => ?_) ps results hps
  refine drive_continued_unstopped lawful (fun value => ?_) hp
  rw [result_sequenceRest lawful]
  exact sequenced_unstopped lawful rest (value :: results)

/-- Behind programs that wait on operations alone there may be one that is no program. -/
theorem askingAll_append_invalid (lawful : host.Lawful) (hbad : bad.isProgram = false)
    (after : List (Value κ)) {before : List (Value κ)} {w : World κ β}
    (hbefore : host.AskingAll driver b before w) :
    host.AskingAll driver b (before ++ bad :: after) w := by
  induction before generalizing w with
  | nil =>
      refine ⟨asking_of_not_program hbad, fun value v hvalue => ?_⟩
      rw [drive_invalid lawful driver b hbad] at hvalue
      cases hvalue
  | cons p rest ih => exact ⟨hbefore.1, fun value v hvalue => ih (hbefore.2 value v hvalue)⟩

/-- Driving members one after the other ends at the first one that is no program. -/
theorem drive_members_invalid (lawful : host.Lawful) (hbad : bad.isProgram = false)
    (before after : List (Value κ)) (w : World κ β) (next : List (Value κ) → Action κ β (Value κ)) :
    (((before ++ bad :: after).mapM (host.drive driver b) >>= next).run w).mapWorld
        World.unlogged =
      ((before.mapM (host.drive driver b) >>= fun _ =>
        (.fail (.invalidProgram bad) : Action κ β (Value κ))).run w).mapWorld World.unlogged := by
  have hrest : ∀ values v,
      ((host.drive driver b bad >>= fun value => after.mapM (host.drive driver b) >>= fun others =>
        next (values ++ value :: others)).run v).mapWorld World.unlogged =
          .fault (.invalidProgram bad) v.unlogged := by
    intro values v
    rw [Action.run_bind_of_fault _ (drive_invalid lawful driver b hbad v)]
    simp only [Outcome.mapWorld, World.unlogged_write]
  calc
    (((before ++ bad :: after).mapM (host.drive driver b) >>= next).run w).mapWorld World.unlogged
        = ((before.mapM (host.drive driver b) >>= fun values =>
            host.drive driver b bad >>= fun value =>
              after.mapM (host.drive driver b) >>= fun others =>
                next (values ++ value :: others)).run w).mapWorld World.unlogged := by
          simp only [List.mapM_append, List.mapM_cons, bind_assoc, pure_bind]
    _ = ((before.mapM (host.drive driver b) >>= fun _ =>
          (.fail (.invalidProgram bad) : Action κ β (Value κ))).run w).mapWorld World.unlogged :=
          Action.mapWorld_bind_congr _ fun values v _ => hrest values v

/-- A sequence that is built although one of its elements is no program runs the programs before
that element and then refuses it. -/
theorem drive_refused (lawful : host.Lawful) {before after : List (Value κ)} {program : Value κ}
    (hbad : bad.isProgram = false)
    (hbuilt : host.sequenced (before ++ bad :: after) [] = pure program) {w : World κ β}
    (hbefore : host.AskingAll driver b before w) :
    ((host.drive driver b program).run w).mapWorld World.unlogged =
      ((before.mapM (host.drive driver b) >>= fun _ =>
        (.fail (.invalidProgram bad) : Action κ β (Value κ))).run w).mapWorld World.unlogged := by
  have hall := askingAll_append_invalid lawful hbad after hbefore
  calc
    ((host.drive driver b program).run w).mapWorld World.unlogged
        = ((host.sequenced (before ++ bad :: after) [] >>= host.drive driver b).run w).mapWorld
            World.unlogged := by rw [hbuilt, pure_bind]
    _ = (((before ++ bad :: after).mapM (host.drive driver b) >>= fun values =>
          pure (.list ([].reverse ++ values))).run w).mapWorld World.unlogged :=
          drive_sequenced_always lawful _ [] hall
    _ = ((before.mapM (host.drive driver b) >>= fun _ =>
          (.fail (.invalidProgram bad) : Action κ β (Value κ))).run w).mapWorld World.unlogged :=
          drive_members_invalid lawful hbad before after w _

/-! ## Traversals -/

theorem fully_mapItems (lawful : host.Lawful) (f : Value κ) :
    ∀ items : List (Value κ), (host.fully fun d => mapItems d f items) =
      items.mapM fun item => host.result f [item]
  | [] => fully_const host _
  | item :: rest => by
      have hsplit : (host.fully fun d => mapItems d f (item :: rest)) =
          (host.result f [item] >>= fun answer =>
            host.fully fun d => mapItems d f rest >>= fun answers => pure (answer :: answers)) :=
        lawful.fully_bind (fun h => h.apply f [item]) fun answer => fun h =>
          (Congruence.mapItems h f rest).bind fun _ => .refl _
      have hrest : ∀ answer, (host.fully fun d => mapItems d f rest >>= fun answers =>
          pure (answer :: answers)) =
            ((host.fully fun d => mapItems d f rest) >>= fun answers =>
              pure (answer :: answers)) := fun answer =>
        lawful.fully_bind_right (fun h => Congruence.mapItems h f rest) _
      rw [List.mapM_cons, hsplit]
      simp only [hrest, fully_mapItems lawful f rest]

/-- A traversal makes all its calls first; the sequence of the answers is built after them. -/
theorem fully_traverse (lawful : host.Lawful) (f items : Value κ) :
    (host.fully fun d => traverse d f items) =
      (liftM (itemsOf items) >>= fun listed =>
        (listed.mapM fun item => host.result f [item]) >>= fun programs =>
          host.fully fun d => sequence d (.list programs)) := by
  have hcalls : ∀ listed, (host.fully fun d => mapItems d f listed >>= fun programs =>
      sequenceFrom d programs []) =
        ((listed.mapM fun item => host.result f [item]) >>= fun programs =>
          host.fully fun d => sequence d (.list programs)) := by
    intro listed
    rw [← fully_mapItems lawful]
    exact lawful.fully_bind (fun h => Congruence.mapItems h f listed) fun programs =>
      deepens_sequenceFrom programs []
  have hsplit : (host.fully fun d => traverse d f items) =
      (liftM (itemsOf items) >>= fun listed =>
        host.fully fun d => mapItems d f listed >>= fun programs => sequenceFrom d programs []) :=
    lawful.fully_bind_left _ fun listed => fun h =>
      (Congruence.mapItems h f listed).bind fun programs => deepens_sequenceFrom programs [] h
  simp only [hsplit, hcalls]

/-! ## Sequences of queries -/

/-- What a sequence builds is a program, so the constructor of queries lets it pass. -/
theorem wrapping_sequenced (lawful : host.Lawful) (programs : List (Value κ)) :
    Query.wrapping (host.sequenced programs []) =
      (host.sequenced programs [] >>= fun program => pure (.query program)) := by
  apply Action.ext
  intro w
  -- Only a value is wrapped.
  cases hrun : (host.sequenced programs []).run w with
  | value program v =>
      have hprogram : program.isProgram = true := sequenced_isProgram lawful programs [] hrun
      have hok : Query.ofProgram program = .ok (.query program) := by
        simp only [Query.ofProgram, ensureProgram, hprogram]
        rfl
      rw [Query.wrapping, Action.run_bind_of_value _ hrun, Action.run_bind_of_value _ hrun, hok]
      rfl
  | fault cause v =>
      rw [Query.wrapping, Action.run_bind_of_fault _ hrun, Action.run_bind_of_fault _ hrun]
  | unfinished =>
      rw [Query.wrapping, Action.run_bind_of_unfinished _ hrun,
        Action.run_bind_of_unfinished _ hrun]

theorem querySequence_eq (lawful : host.Lawful) (queries : List (Value κ)) :
    (host.fully fun d => Query.sequence d (.list queries)) =
      match queries.find? fun q => !Query.accepts q with
      | some bad => .fail (.invalidProgram bad)
      | none => host.sequenced (queries.map Query.unwrapped) [] >>= fun program =>
          pure (.query program) := by
  rw [fully_querySequence lawful, Query.mapM_asProgram_eq]
  cases queries.find? fun q => !Query.accepts q with
  | some bad => rfl
  | none => exact wrapping_sequenced lawful _

/-- The elements that a sequence of queries lets pass stand for programs. -/
theorem unwrapped_isProgram {queries : List (Value κ)}
    (hqueries : ∀ p, .query p ∈ queries → p.isProgram = true)
    (haccepted : ∀ q ∈ queries, Query.accepts q = true) :
    ∀ p ∈ queries.map Query.unwrapped, p.isProgram = true := by
  intro p hp
  obtain ⟨q, hq, rfl⟩ := List.mem_map.1 hp
  cases q with
  | query program => exact hqueries program hq
  | _ => exact haccepted _ hq

/-- A sequence of queries reports a value that is no program exactly if it is the first element
that is refused. -/
theorem querySequence_refuses_iff (lawful : host.Lawful) {queries : List (Value κ)}
    (hqueries : ∀ p, .query p ∈ queries → p.isProgram = true) (w v : World κ β) :
    (host.fully fun d => Query.sequence d (.list queries)).run w = .fault (.invalidProgram bad) v ↔
      queries.find? (fun q => !Query.accepts q) = some bad ∧ v = w := by
  rw [querySequence_eq lawful]
  cases hfind : queries.find? fun q => !Query.accepts q with
  | some other =>
      constructor
      · intro h
        cases h
        exact ⟨rfl, rfl⟩
      · rintro ⟨h, rfl⟩
        cases h
        rfl
  | none =>
      -- All elements are let pass, and a sequence of programs is not refused for its elements.
      have haccepted : ∀ q ∈ queries, Query.accepts q = true := by
        simpa using List.find?_eq_none.1 hfind
      constructor
      · intro h
        rcases Action.run_bind_fault_cases h with hbuild | ⟨program, u, _, hpure⟩
        · obtain ⟨waiting, hcause⟩ :=
            sequenced_fault_cases lawful (unwrapped_isProgram hqueries haccepted) hbuild
          cases hcause
        · cases hpure
      · rintro ⟨h, _⟩
        cases h

/-! ## Where elements are refused -/

/-- An element that is no program is refused when its turn comes.  Behind programs that have
finished this is while the sequence is built; behind one that waits, the sequence is built, and
its run by each of the drivers is the run of the programs before, one after the other, and then
the fault, whatever the elements behind are.  A sequence of queries refuses the first element that
is neither a query nor a program, before anything else is done; if there is none it is the query
of the sequence of the programs.  A traversal calls its function on one item after the other,
until one of the calls fails, and then builds the sequence of the answers. -/
theorem sequence_refuses (lawful : host.Lawful) :
    (∀ before bad after, (∀ p ∈ before, p.Ready) → bad.isProgram = false →
      let built := host.fully fun d => sequence d (.list (before ++ bad :: after))
      (∀ w, (∃ cause v, built.run w = .fault cause v) ↔
          ∀ p ∈ before, ∃ value, p = .terminal value) ∧
        (∀ w cause v, built.run w = .fault cause v → cause = .invalidProgram bad ∧ v = w) ∧
        ((∃ p ∈ before, ∀ value, p ≠ .terminal value) →
          ∃ waiting, built = pure (.pending waiting) ∧
            ∀ driver b w, host.AskingAll driver b before w →
              ((host.drive driver b (.pending waiting)).run w).mapWorld World.unlogged =
                ((do
                  let _ ← before.mapM (host.drive driver b)
                  Action.fail (α := Value κ) (.invalidProgram bad)).run w).mapWorld
                    World.unlogged)) ∧
      (∀ queries, (∀ p, .query p ∈ queries → p.isProgram = true) →
        let built := host.fully fun d => Query.sequence d (.list queries)
        (∀ w bad v, built.run w = .fault (.invalidProgram bad) v ↔
          queries.find? (fun q => !Query.accepts q) = some bad ∧ v = w) ∧
        ((∀ q ∈ queries, Query.accepts q = true) →
          built = do
            let program ← host.fully fun d => sequence d (.list (queries.map Query.unwrapped))
            return .query program)) ∧
      ∀ f items,
        let built := host.fully fun d => traverse d f items
        (built = do
          let listed ← liftM (itemsOf items)
          let programs ← listed.mapM fun item => host.result f [item]
          host.fully fun d => sequence d (.list programs)) ∧
        ∀ before item after programs w v cause u, items.items? = some (before ++ item :: after) →
          (before.mapM fun item => host.result f [item]).run w = .value programs v →
          (host.result f [item]).run v = .fault cause u → built.run w = .fault cause u := by
  refine ⟨fun before bad after hready hbad => ?_, fun queries hqueries => ?_, fun f items => ?_⟩
  · have hbuilt : (host.fully fun d => sequence d (.list (before ++ bad :: after))) =
        host.sequenced (before ++ bad :: after) [] := rfl
    simp only [hbuilt]
    rcases sequenced_refused_cases lawful hready hbad after with
      ⟨hfinished, hfail⟩ | ⟨⟨p, hp, hwaits⟩, waiting, hpure⟩
    · -- All programs before have finished: refused while the sequence is built.
      simp only [hfail]
      refine ⟨fun w => ⟨fun _ => hfinished, fun _ => ⟨_, w, rfl⟩⟩, fun w cause v h => ?_, ?_⟩
      · cases h
        exact ⟨rfl, rfl⟩
      · rintro ⟨p, hp, hwaits⟩
        obtain ⟨value, rfl⟩ := hfinished p hp
        exact absurd rfl (hwaits value)
    · -- One of them waits: built, and refused by the run.
      refine ⟨fun w => ⟨?_, fun hfinished => ?_⟩, fun w cause v h => ?_, fun _ => ?_⟩
      · rintro ⟨cause, v, h⟩
        rw [hpure] at h
        cases h
      · obtain ⟨value, rfl⟩ := hfinished p hp
        exact absurd rfl (hwaits value)
      · rw [hpure] at h
        cases h
      · exact ⟨waiting, hpure, fun driver b w hbefore => drive_refused lawful hbad hpure hbefore⟩
  · refine ⟨fun w bad v => querySequence_refuses_iff lawful hqueries w v, fun haccepted => ?_⟩
    have hnone : queries.find? (fun q => !Query.accepts q) = none :=
      List.find?_eq_none.2 fun q hq => by simp [haccepted q hq]
    rw [querySequence_eq lawful, hnone]
    rfl
  · refine ⟨fully_traverse lawful f items, ?_⟩
    intro before item after programs w v cause u hitems hbefore hitem
    -- The call that fails ends the calls, and nothing is built.
    have hcalls := run_mapM_of_fault hbefore hitem after
    have hlisted : (liftM (itemsOf items) : Action κ β (List (Value κ))) =
        pure (before ++ item :: after) := by
      rw [itemsOf_eq hitems]
      rfl
    rw [fully_traverse lawful, hlisted, pure_bind]
    exact Action.run_bind_of_fault _ hcalls

/-- Over an empty store: a sequence that lists the store, then comes to what is no program, asks
for the documents and no more; the same value in a sequence of queries is refused at once; and a
traversal stops at an item that its function refuses. -/
theorem sequence_refuses_null :
    let host := Script.host []
    let b := Script.Stores.backend 0
    let w := Script.emptyStore
    let before : List (Value Script.Code) := [Request.toProgram .getAll, .terminal (.int 1)]
    let after : List (Value Script.Code) := [Request.toProgram (.create (.text "doc"))]
    let queries : List (Value Script.Code) := [.query (.terminal (.int 1)), .null, .int 2]
    let f : Value Script.Code := .fn (.callback (.function ["item"] (.raise .value "no")) [])
    host.AskingAll .awaited b before w ∧
      (∃ waiting u, (host.fully fun d => sequence d (.list (before ++ .null :: after))) =
          pure (.pending waiting) ∧
        ((host.drive .awaited b (.pending waiting)).run w).mapWorld World.unlogged =
          .fault (.invalidProgram .null) u ∧
        u.journal = [.call .getAll]) ∧
      (host.fully fun d => Query.sequence d (.list queries)).run w =
        .fault (.invalidProgram .null) w ∧
      (host.fully fun d => traverse d f (.list [.int 1, .int 2])).run w =
        .fault (.raised .value "no") w := by
  intro host b w before after queries f
  have lawful : host.Lawful := Script.host_lawful []
  have hbefore : host.AskingAll .awaited b before w :=
    askingAll_of_sound (fun p hp => by
      simp only [before, List.mem_cons, List.not_mem_nil, or_false] at hp
      rcases hp with rfl | rfl
      · exact Or.inl (sound_toProgram lawful .getAll)
      · refine Or.inl ⟨fun q => q = .terminal (.int 1), fun q hq => ?_, rfl⟩
        rw [hq]
        exact .finished _) w
  have hready : ∀ p ∈ before, p.Ready := by
    intro p hp
    simp only [before, List.mem_cons, List.not_mem_nil, or_false] at hp
    rcases hp with rfl | rfl
    · exact .waiting _
    · exact .finished _
  have hqueries : ∀ p, .query p ∈ queries → p.isProgram = true := by
    intro p hp
    simp only [queries, List.mem_cons, Value.query.injEq, List.not_mem_nil, or_false,
      reduceCtorEq] at hp
    rw [hp]
    rfl
  -- Calls that nest ten deep are enough for both programs.
  obtain ⟨v, u, hfirst, hsecond, hjournal⟩ : ∃ v u,
      (host.drive .awaited b (Request.toProgram .getAll)).run w = .value (.list []) v ∧
        (host.drive .awaited b (.terminal (.int 1))).run v = .value (.int 1) u ∧
        u.unlogged.journal = [.call .getAll] :=
    ⟨_, _, drive_of_run lawful 10 rfl trivial, drive_of_run lawful 10 rfl trivial, rfl⟩
  have hvalues : (before.mapM (host.drive .awaited b)).run w =
      .value [.list [], .int 1] u := by
    rw [List.mapM_cons, Action.run_bind_of_value _ hfirst, List.mapM_cons, bind_assoc,
      Action.run_bind_of_value _ hsecond]
    rfl
  have hcall : (host.result f [.int 1]).run w = .fault (.raised .value "no") w :=
    (lawful.call_approx 2 f [.int 1]).run_eq rfl trivial
  obtain ⟨hsequence, hquery, htraverse⟩ := sequence_refuses lawful
  obtain ⟨waiting, hbuilt, hrun⟩ := (hsequence before .null after hready rfl).2.2
    ⟨_, List.mem_cons_self, fun value h => by cases h⟩
  refine ⟨hbefore, ⟨waiting, u.unlogged, hbuilt, ?_, hjournal⟩, ?_, ?_⟩
  · rw [hrun .awaited b w hbefore, Action.run_bind_of_value _ hvalues]
    rfl
  · exact ((hquery queries hqueries).1 w .null w).2 ⟨rfl, rfl⟩
  · exact (htraverse f (.list [.int 1, .int 2])).2 [] (.int 1) [.int 2] [] w w _ _ rfl rfl hcall

end Host

end Workflow
