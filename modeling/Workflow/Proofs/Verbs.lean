import Workflow.Proofs.Associativity
import Workflow.Proofs.Facade
import Workflow.Proofs.Unlogged

/-!
# Running queries

A query is run by the method that is named after the driver.  Since a query holds the program that
its core builds, up to sameness, the runs match under every driver and with every executor that
only calls continuations (`Host.run_matches_core`).

A verb on a query first runs the query to its end, drops the result and then runs the program of
the verb (`Host.drive_always`).  For the two drivers that leave faults as they are this is a case
of `Host.drive_followed`; an awaited run is a stepped run whose faults are changed on the way out,
and they may as well be changed on the way out of each part, as long as what is called in between
raises none that would be changed (`Host.drive_continued_unstopped`).
-/

namespace Workflow

variable {κ β σ α γ : Type}

/-- No stop signal leaves the action. -/
def Action.Unstopped (x : Action κ β α) : Prop :=
  x.mapFault (Fault.crossing .coroutine) = x

namespace Host

variable {host : Host κ β σ} {driver : Driver} {b : Backend (Value κ)} {p next f : Value κ}

/-! ## One program after another -/

/-- A stepped run comes to what an awaited run comes to. -/
theorem Asking.stepped (lawful : host.Lawful) {w : World κ β}
    (hp : host.Asking .awaited b 0 p (w.write (.started .awaited))) :
    host.Asking .stepped b 0 p (w.write (.started .stepped)) := by
  intro ops waiting v hpath
  rcases hpath.mirror lawful awaited_mirrors_stepped.symm
    (alike_started awaited_mirrors_stepped.symm w) with ⟨v', hpath', _⟩
  exact hp ops waiting v' hpath'

/-- A program whose continuation raises no stop signal is built without one. -/
theorem continued_unstopped (lawful : host.Lawful) (hf : ∀ value, (host.result f [value]).Unstopped)
    (p : Value κ) : (host.continued p f).Unstopped := by
  have hwalks : host.Walks fun p => host.continued p f := walks_continued lawful f
  rcases program_cases p with ⟨value, rfl⟩ | ⟨op, rfl⟩ | ⟨waiting, rfl, hwaiting⟩ | hp
  · exact hf value
  · rw [continued_waiting]
    rfl
  · rw [hwalks.refused waiting hwaiting]
    rfl
  · rw [hwalks.invalid p hp]
    rfl

/-- A program is driven to its end, then `f` is called and the program that it answers is driven,
under every driver if `f` raises no stop signal. -/
theorem drive_continued_unstopped (lawful : host.Lawful)
    (hf : ∀ value, (host.result f [value]).Unstopped) {w : World κ β}
    (hp : host.Asking driver b 0 p (w.write (.started driver))) :
    ((host.continued p f >>= host.drive driver b).run w).mapWorld World.unlogged =
      ((host.drive driver b p >>= fun value =>
        host.result f [value] >>= host.drive driver b).run w).mapWorld World.unlogged := by
  by_cases hdriver : driver = .awaited
  · subst hdriver
    let change : Fault κ → Fault κ := Fault.crossing .coroutine
    have hawaited : ∀ q, (host.drive .awaited b q).unlogged =
        ((host.drive .stepped b q).mapFault change).unlogged := drive_awaited_unlogged lawful b
    have hblind : ∀ q, ((host.drive .stepped b q).mapFault change).Blind := fun q =>
      (Congruence.mapFault (C := Congruence.blind) change ⟨rfl, drive_blind lawful .stepped b q⟩).2
    -- What is built before a run raises nothing that the edge of the coroutine would change.
    have hbuilt : ∀ x : Action κ β (Value κ), x.Unstopped →
        (x >>= host.drive .awaited b).unlogged =
          ((x >>= host.drive .stepped b).mapFault change).unlogged := by
      intro x hx
      rw [Action.mapFault_bind, show x.mapFault change = x from hx,
        Action.unlogged_bind _ (drive_blind lawful .awaited b), Action.unlogged_bind _ hblind]
      simp only [hawaited]
    have hrest : ∀ value, (host.result f [value] >>= host.drive .awaited b).Blind := fun value =>
      (lawful.result_blind f [value]).bind (drive_blind lawful .awaited b)
    have hrest' : ∀ value, ((host.result f [value] >>= host.drive .stepped b).mapFault change).Blind :=
      fun value => (Congruence.mapFault (C := Congruence.blind) change
        ⟨rfl, (lawful.result_blind f [value]).bind (drive_blind lawful .stepped b)⟩).2
    have hstepped : (host.continued p f >>= host.drive .stepped b).unlogged.run w =
        (host.drive .stepped b p >>= fun value =>
          host.result f [value] >>= host.drive .stepped b).unlogged.run w :=
      drive_followed lawful (by simp) (.refl .refl _) (hp.stepped lawful)
    calc
      (host.continued p f >>= host.drive .awaited b).unlogged.run w
          = ((host.continued p f >>= host.drive .stepped b).mapFault change).unlogged.run w := by
            rw [hbuilt _ (continued_unstopped lawful hf p)]
      _ = ((host.drive .stepped b p >>= fun value =>
            host.result f [value] >>= host.drive .stepped b).mapFault change).unlogged.run w := by
            rw [Action.unlogged_mapFault, Action.unlogged_mapFault, Outcome.run_mapFault,
              Outcome.run_mapFault, hstepped]
      _ = (host.drive .awaited b p >>= fun value =>
            host.result f [value] >>= host.drive .awaited b).unlogged.run w := by
            rw [Action.mapFault_bind, Action.unlogged_bind _ hrest', Action.unlogged_bind _ hrest,
              hawaited]
            simp only [hbuilt _ (hf _)]
  · exact drive_followed lawful hdriver (.refl .refl _) hp

/-- A program that is followed by another one, whatever its result is, is driven to its end, then
the other one is driven. -/
theorem drive_always (lawful : host.Lawful) {w : World κ β}
    (hp : host.Asking driver b 0 p (w.write (.started driver))) :
    ((host.continued p (.fn (.always next)) >>= host.drive driver b).run w).mapWorld
        World.unlogged =
      ((host.drive driver b p >>= fun _ => host.drive driver b next).run w).mapWorld
        World.unlogged := by
  have hnext : ∀ value, (host.result (.fn (.always next)) [value]).Unstopped := fun value => by
    rw [result_always lawful]
    rfl
  simpa only [result_always lawful, pure_bind] using drive_continued_unstopped lawful hnext hp

end Host

/-! ## Running queries -/

/-- The method of queries that runs them by a driver. -/
def Driver.method : Driver → String
  | .eager => "run_eval"
  | .stepped => "run"
  | .awaited => "run_async"

/-- Runs a query by the method for a driver. -/
def Facade.run (driver : Driver) (d : Dispatch κ β) (executor : Value κ) :
    Value κ → Action κ β (Value κ) :=
  Facade.onQuery driver.method fun program => driver.drive d executor program

namespace Host

variable {host : Host κ β σ} {driver : Driver} {b : Backend (Value κ)} {executor : Value κ}
  {functions : Facade.Functions κ}

theorem deepens_run (driver : Driver) (executor query : Value κ) :
    Deepens fun d : Dispatch κ β => Facade.run driver d executor query :=
  fun hd => Congruence.onQuery (C := Congruence.approx)
    (fun program => deepens_drive driver executor program hd) query

/-- Evaluating an expression and running the query, at unbounded depth. -/
theorem fully_evaluate_run (lawful : host.Lawful) (driver : Driver) (executor : Value κ)
    (e : Facade κ) :
    (host.fully fun d => e.evaluate d >>= Facade.run driver d executor) =
      (host.queried e >>= fun query =>
        host.fully fun d => Facade.run driver d executor query) :=
  lawful.fully_bind (fun hd => Congruence.facadeEvaluate hd e) fun query =>
    deepens_run driver executor query

/-- A query is run as the core of its expression is driven. -/
theorem run_matches_core (lawful : host.Lawful) (behave : functions.Behave host)
    (hE : host.CallsOnly executor driver) (e : Facade κ) :
    Action.Matches (host.SameValue driver) (host.SameFault driver)
      (host.fully fun d => e.evaluate d >>= Facade.run driver d executor)
      (host.fully fun d => e.core functions d >>= driver.drive d executor) := by
  have hcore : (host.fully fun d => e.core functions d >>= driver.drive d executor) =
      (host.cored functions e >>= host.driven driver executor) :=
    lawful.fully_bind (fun hd => Congruence.facadeCore functions hd e) fun p =>
      deepens_drive driver executor p
  have hblind : (host.cored functions e).Blind :=
    lawful.fully_blind (fun hd => Congruence.facadeCore functions hd e) fun depth =>
      (Congruence.facadeCore functions (lawful.dispatch_blind depth) e).2
  have hbuilt : (host.queried e).Matches host.Wraps (host.SameFault driver)
      (host.cored functions e) :=
    hblind.matches_of_related (SameFault.refl driver) (queried_related lawful behave e)
  rw [fully_evaluate_run lawful, hcore]
  refine hbuilt.bind fun query program hquery => ?_
  rcases hquery with ⟨wrapped, rfl, _, hsame⟩
  exact hsame.driven lawful hE

/-- A verb on a query runs the query to its end, then the program of the verb. -/
theorem run_followedBy (lawful : host.Lawful) (e : Facade κ) (verb : Facade.Verb κ) {w : World κ β}
    (hquery : ∀ query v, (host.queried e).run w = .value query v → ∃ program,
      query = .query program ∧ host.Asking driver b 0 program (v.write (.started driver))) :
    ((host.fully fun d => (Facade.followedBy e verb).evaluate d >>=
        Facade.run driver d (driver.executorOver b)).run w).mapWorld World.unlogged =
      ((host.queried e >>= Facade.onQuery driver.method fun program =>
        host.drive driver b program >>= fun _ =>
          host.drive driver b verb.program).run w).mapWorld World.unlogged := by
  have hsplit : host.queried (.followedBy e verb) = (host.queried e >>= fun query =>
      host.fully fun d => Facade.onQuery verb.name
        (fun program => Query.followedBy d program verb.program) query) :=
    lawful.fully_bind (fun hd => Congruence.facadeEvaluate hd e) fun query => fun hd =>
      Congruence.onQuery (C := Congruence.approx)
        (fun program => Congruence.wrapping (Congruence.andThen hd program _)) query
  rw [fully_evaluate_run lawful, hsplit, bind_assoc]
  refine Action.mapWorld_bind_congr _ fun query v hv => ?_
  rcases hquery query v hv with ⟨program, rfl, hasking⟩
  -- What the verb builds is a program, so the constructor of queries lets it pass.
  have hwrapped : (host.fully fun d => Query.followedBy d program verb.program) =
      Query.wrapping (host.continued program (.fn (.always verb.program))) :=
    lawful.fully_bind_right (deepens_andThen program _) _
  have hpasses : ∀ q u, (host.continued program (.fn (.always verb.program))).run v = .value q u →
      ((liftM (Query.ofProgram q) >>= fun query =>
        host.fully fun d => Facade.run driver d (driver.executorOver b) query).run u).mapWorld
          World.unlogged = ((host.drive driver b q).run u).mapWorld World.unlogged := by
    intro q u hq
    have hprogram : q.isProgram = true := by
      refine continued_isProgram lawful (fun value r w z h => ?_) hq
      rw [result_always lawful] at h
      cases h
      exact verb.program_isProgram
    have hok : Query.ofProgram q = .ok (.query q) := by
      simp only [Query.ofProgram, ensureProgram, hprogram]
      rfl
    rw [hok]
    rfl
  calc
    ((host.fully (fun d => Query.followedBy d program verb.program) >>= fun query =>
          host.fully fun d => Facade.run driver d (driver.executorOver b) query).run v).mapWorld
            World.unlogged
        = ((host.continued program (.fn (.always verb.program)) >>= fun q =>
            liftM (Query.ofProgram q) >>= fun query =>
              host.fully fun d => Facade.run driver d (driver.executorOver b) query).run
                v).mapWorld World.unlogged := by
          rw [hwrapped]
          exact congrArg (fun x : Action κ β (Value κ) => (x.run v).mapWorld World.unlogged)
            (bind_assoc _ _ _)
    _ = ((host.continued program (.fn (.always verb.program)) >>=
          host.drive driver b).run v).mapWorld World.unlogged :=
          Action.mapWorld_bind_congr _ hpasses
    _ = ((host.drive driver b program >>= fun _ =>
          host.drive driver b verb.program).run v).mapWorld World.unlogged :=
          drive_always lawful hasking

/-- The facade adds no meaning.  Evaluating an expression fails exactly as building its core fails,
or gives a query of a program that nobody can tell from what its core builds.  So the query runs
as the core does, under every driver and with every executor that only calls continuations.  And a
verb on a query first runs the query to its end, with all its requests, then drops the result and
runs the program of the verb, unless the query comes to a value that is no operation; both ways
end in the same world, log lines aside. -/
theorem facade_adds_nothing (lawful : host.Lawful) (behave : functions.Behave host)
    (e : Facade κ) :
    (∀ w, Outcome.Related host.Wraps ((host.fully fun d => e.evaluate d).run w)
        ((host.fully fun d => e.core functions d).run w)) ∧
      (∀ driver executor, host.CallsOnly executor driver →
        Action.Matches (host.SameValue driver) (host.SameFault driver)
          (host.fully fun d => do
            let query ← e.evaluate d
            Facade.run driver d executor query)
          (host.fully fun d => do
            let program ← e.core functions d
            driver.drive d executor program)) ∧
      ∀ verb driver b w,
        (∀ program v, (host.fully fun d => e.evaluate d).run w = .value (.query program) v →
          host.Asking driver b 0 program (v.write (.started driver))) →
        ((host.fully fun d => do
            let query ← (Facade.followedBy e verb).evaluate d
            Facade.run driver d (driver.executorOver b) query).run w).mapWorld World.unlogged =
          ((do
            let query ← host.fully fun d => e.evaluate d
            Facade.onQuery driver.method (fun program => do
              let _ ← host.drive driver b program
              host.drive driver b verb.program) query).run w).mapWorld World.unlogged := by
  refine ⟨queried_related lawful behave e, fun driver executor hE => ?_, ?_⟩
  · exact run_matches_core lawful behave hE e
  · intro verb driver b w hasking
    refine run_followedBy lawful e verb fun query v hquery => ?_
    -- Whatever an expression gives is a query.
    have hrelated := queried_related lawful behave e w
    rw [hquery] at hrelated
    generalize (host.cored functions e).run w = o at hrelated
    cases hrelated with
    | value _ hwraps =>
        rcases hwraps with ⟨program, rfl, _, _⟩
        exact ⟨program, rfl, hasking program v hquery⟩

/-- A sequence of a script's queries: everything is listed and a mark is left, then a document is
stored, which the core does by a function of the script; the second element is no query.  And a
query that lists everything, followed by a verb that stores a document. -/
theorem facade_adds_nothing_stored :
    let h := Script.host []
    let functions : Facade.Functions Script.Code :=
      ⟨fun program => .fn (.callback (.function ["_"] (.var "program")) [("program", program)]),
        fun f => .fn (.compose (.fn .asProgram) f)⟩
    let mark : Value Script.Code :=
      .fn (.callback (.function ["docs"] (.trace "docs" (.var "docs"))) [])
    let list : Facade Script.Code := .start (.request .getAll)
    let store : Facade.Verb Script.Code := .request (.create (.text "doc"))
    let e : Facade Script.Code :=
      .sequence (.query (.followedBy (.map list mark) store) (.value .null .nil))
    let b := Script.Stores.backend 0
    functions.Behave h ∧ h.CallsOnly Script.twice .eager ∧
      Outcome.Related h.Wraps ((h.fully fun d => e.evaluate d).run Script.emptyStore)
        ((h.fully fun d => e.core functions d).run Script.emptyStore) ∧
      Action.Matches (h.SameValue .eager) (h.SameFault .eager)
        (h.fully fun d => do
          let query ← e.evaluate d
          Facade.run .eager d Script.twice query)
        (h.fully fun d => do
          let program ← e.core functions d
          Driver.eager.drive d Script.twice program) ∧
      ((h.fully fun d => do
          let query ← (Facade.followedBy list store).evaluate d
          Facade.run .awaited d (Driver.awaited.executorOver b) query).run
            Script.emptyStore).mapWorld World.unlogged =
        ((do
          let query ← h.fully fun d => list.evaluate d
          Facade.onQuery "run_async" (fun program => do
            let _ ← h.drive .awaited b program
            h.drive .awaited b store.program) query).run Script.emptyStore).mapWorld
              World.unlogged := by
  intro h functions mark list store e b
  have lawful : h.Lawful := Script.host_lawful []
  have behave : functions.Behave h := by
    refine ⟨fun program value => ?_, fun f value => ?_⟩
    · exact (lawful.result_fn _ [value]).trans (fully_const h (pure program))
    · have hunwrap : ∀ answer, h.result (.fn .asProgram) [answer] = liftM (asProgram answer) :=
        fun answer => (lawful.result_fn .asProgram [answer]).trans (fully_const h _)
      have hcompose : h.result (functions.unwrapping f) [value] = _ :=
        lawful.result_compose (.fn .asProgram) f value
      simp only [hcompose, hunwrap]
  have hlist : ∀ program v, (h.fully fun d => list.evaluate d).run Script.emptyStore =
      .value (.query program) v →
        h.Asking .awaited b 0 program (v.write (.started .awaited)) := by
    intro program v hvalue
    have hconst : (h.fully fun d => list.evaluate d) = pure (.query (Request.toProgram .getAll)) :=
      fully_const h _
    rw [hconst] at hvalue
    cases hvalue
    exact (sound_toProgram lawful .getAll).asking
  have hcalls : h.CallsOnly Script.twice .eager := Script.callsOnly_twice .eager
  exact ⟨behave, hcalls, (facade_adds_nothing lawful behave e).1 Script.emptyStore,
    (facade_adds_nothing lawful behave e).2.1 .eager Script.twice hcalls,
    (facade_adds_nothing lawful behave list).2.2 store .awaited b Script.emptyStore hlist⟩

end Host

end Workflow
