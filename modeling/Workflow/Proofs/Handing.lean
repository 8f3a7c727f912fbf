import Workflow.Proofs.Agreement
import Workflow.Proofs.Executors
import Workflow.Proofs.Scripts

/-!
# What a loop hands to its executor

The stepped and the awaited driver are loops over an executor of which nothing is known: it may
ignore continuations, answer what is no program, fail, or drive other programs itself.  The loop
hands it the operation of its program, goes on with the answer, and so on (`Host.Hands`), until
the answer is finished or no program, or the executor fails (`Host.Exits`).  That is all it does,
also where the run never ends, and it writes its own lines in between and nowhere else
(`Host.drive_hands`).
-/

namespace Workflow

variable {κ β σ : Type}

/-- One call of an executor. -/
structure Handed (κ : Type) where
  /-- What it was handed. -/
  operation : Value κ
  /-- What was done in the call, in order. -/
  events : List (Event κ)

/-- One call counts as a step, and the calls after it count from there. -/
theorem Handed.length_cons (steps : Nat) (call : Handed κ) (calls : List (Handed κ)) :
    steps + (call :: calls).length = steps + 1 + calls.length := by
  rw [List.length_cons]
  omega

namespace Driver

/-- What the journal holds of calls that a driver makes one after the other, the first of them
after `steps` others: each call is announced, and nothing stands between a line and its call. -/
def announced (driver : Driver) : Nat → List (Handed κ) → List (Event κ)
  | _, [] => []
  | steps, call :: calls =>
      .log (driver.stepLine steps call.operation) :: call.events ++
        announced driver (steps + 1) calls

theorem announced_append (driver : Driver) (calls later : List (Handed κ)) :
    ∀ steps : Nat, driver.announced steps (calls ++ later) =
      driver.announced steps calls ++ driver.announced (steps + calls.length) later := by
  induction calls with
  | nil => exact fun _ => rfl
  | cons call calls ih =>
      intro steps
      simp only [List.cons_append, announced, ih, Handed.length_cons, List.append_assoc]

/-- The line that a driver ends with: it reports a value, and nothing else. -/
def reported (driver : Driver) (steps : Nat) : Outcome κ β (Value κ) → List (Event κ)
  | .value _ _ => [.log (driver.finishLine steps)]
  | _ => []

/-- With one round more a loop goes at least as far. -/
theorem loop_more {driver : Driver} (hand : Value κ → Action κ β (Value κ)) :
    ∀ (rounds steps : Nat) (p : Value κ),
      (driver.loop hand rounds steps p).Approx (driver.loop hand (rounds + 1) steps p)
  | 0, _, _ => .of_unfinished _
  | rounds + 1, steps, p => by
      cases p with
      | pending operation =>
          refine Action.Approx.bind (.refl _) fun _ => ?_
          exact Action.Approx.bind (.refl _) fun next => loop_more hand rounds (steps + 1) next
      | _ => exact .refl _

theorem goOn_eq_loop {driver : Driver} (hloop : driver ≠ .eager) (d : Dispatch κ β)
    (executor : Value κ) (steps : Nat) (p : Value κ) :
    driver.goOn d executor steps p =
      driver.loop (driver.hand d executor) d.rounds steps p := by
  cases driver with
  | eager => exact absurd rfl hloop
  | stepped | awaited => rfl

end Driver

namespace World

theorem write_journal {w : World κ β} (h : w.debug.enabled = true) (line : LogLine κ) :
    (w.write line).journal = .log line :: w.journal := by
  rw [write, if_pos h]

end World

namespace Host

variable {host : Host κ β σ} {driver : Driver} {executor : Value κ}

/-! ## Runs of the loop -/

/-- From `current`, reached after `steps` calls in the world `w`, the loop makes the calls and
comes to another value in another world. -/
inductive Hands (host : Host κ β σ) (driver : Driver) (executor : Value κ) :
    Nat → Value κ → World κ β → List (Handed κ) → Value κ → World κ β → Prop
  | here {steps : Nat} {p : Value κ} {w : World κ β} : Hands host driver executor steps p w [] p w
  | call {steps : Nat} {operation answer q : Value κ} {w v u : World κ β}
      {events : List (Event κ)} {calls : List (Handed κ)} :
      (host.result executor [operation]).run (w.write (driver.stepLine steps operation)) =
        .value answer v →
      v.journal = events.reverse ++ (w.write (driver.stepLine steps operation)).journal →
      Hands host driver executor (steps + 1) answer v calls q u →
      Hands host driver executor steps (.pending operation) w (⟨operation, events⟩ :: calls) q u

/-- After `steps` calls the loop is left: without another call, or by one that fails. -/
inductive Exits (host : Host κ β σ) (driver : Driver) (executor : Value κ) (steps : Nat) :
    Value κ → World κ β → List (Handed κ) → Outcome κ β (Value κ) → Prop
  | returned (value : Value κ) (w : World κ β) :
      Exits host driver executor steps (.terminal value) w []
        (.value value (w.write (driver.finishLine steps)))
  | refused {p : Value κ} (w : World κ β) : p.isProgram = false →
      Exits host driver executor steps p w [] (.fault (.invalidProgram p) w)
  | raised {operation : Value κ} {cause : Fault κ} {w v : World κ β} {events : List (Event κ)} :
      (host.result executor [operation]).run (w.write (driver.stepLine steps operation)) =
        .fault cause v →
      v.journal = events.reverse ++ (w.write (driver.stepLine steps operation)).journal →
      Exits host driver executor steps (.pending operation) w [⟨operation, events⟩]
        (.fault (driver.leaving cause) v)

/-- The loop that starts from `p` makes the calls and is left with the outcome. -/
def Completes (host : Host κ β σ) (driver : Driver) (executor p : Value κ) (w : World κ β)
    (calls : List (Handed κ)) (o : Outcome κ β (Value κ)) : Prop :=
  ∃ first q v last, host.Hands driver executor 0 p w first q v ∧
    host.Exits driver executor first.length q v last o ∧ calls = first ++ last

theorem Exits.finished {steps : Nat} {p : Value κ} {w : World κ β} {calls : List (Handed κ)}
    {o : Outcome κ β (Value κ)} (h : host.Exits driver executor steps p w calls o) :
    o.Finished := by
  cases h <;> trivial

/-- What a call does is what it adds to the journal. -/
theorem exists_events (lawful : host.Lawful) {f : Value κ} {arguments : List (Value κ)}
    {w v : World κ β} {o : Outcome κ β (Value κ)} (h : (host.result f arguments).run w = o)
    (ho : o.world? = some v) : ∃ events : List (Event κ), v.journal = events.reverse ++ w.journal := by
  subst h
  obtain ⟨added, hadded⟩ := (lawful.result_blind f arguments).journal_suffix ho
  exact ⟨added.reverse, by rw [List.reverse_reverse, hadded]⟩

/-! ## One way to go on -/

theorem events_unique {events events' journal journal' : List (Event κ)}
    (h : journal' = events.reverse ++ journal) (h' : journal' = events'.reverse ++ journal) :
    events' = events :=
  List.reverse_injective (List.append_cancel_right (h'.symm.trans h))

/-- Equally many calls come to the same value in the same world. -/
theorem Hands.unique {steps : Nat} {p q : Value κ} {w v : World κ β} {calls : List (Handed κ)}
    (h : host.Hands driver executor steps p w calls q v) :
    ∀ {calls' : List (Handed κ)} {q' : Value κ} {v' : World κ β},
      host.Hands driver executor steps p w calls' q' v' → calls'.length = calls.length →
        calls' = calls ∧ q' = q ∧ v' = v := by
  -- The other run is in the same world before each call, and so is answered the same.
  induction h with
  | here =>
      intro calls' q' v' h' hlength
      cases h' with
      | here => exact ⟨rfl, rfl, rfl⟩
      | call => cases hlength
  | @call steps operation answer q w v u events calls hcall hevents _ ih =>
      intro calls' q' v' h' hlength
      cases h' with
      | here => cases hlength
      | @call _ _ _ _ _ _ _ events' calls' hcall' hevents' hrest' =>
          rw [hcall] at hcall'
          cases hcall'
          cases events_unique hevents hevents'
          obtain ⟨rfl, rfl, rfl⟩ := ih hrest' (by simpa using hlength)
          exact ⟨rfl, rfl, rfl⟩

/-- Where the loop is left it does not go on. -/
theorem Exits.not_answered {steps : Nat} {operation answer : Value κ} {w v : World κ β}
    {calls : List (Handed κ)} {o : Outcome κ β (Value κ)}
    (h : host.Exits driver executor steps (.pending operation) w calls o) :
    (host.result executor [operation]).run (w.write (driver.stepLine steps operation)) ≠
      .value answer v := by
  intro hcall
  cases h with
  | refused _ hp => cases hp
  | raised hraised =>
      rw [hcall] at hraised
      cases hraised

/-- There is one way to leave it. -/
theorem Exits.unique {steps : Nat} {p : Value κ} {w : World κ β} {calls calls' : List (Handed κ)}
    {o o' : Outcome κ β (Value κ)} (h : host.Exits driver executor steps p w calls o)
    (h' : host.Exits driver executor steps p w calls' o') : calls' = calls ∧ o' = o := by
  cases h with
  | returned value w =>
      cases h' with
      | returned => exact ⟨rfl, rfl⟩
      | refused _ hp => cases hp
  | refused w hp =>
      cases h' with
      | refused => exact ⟨rfl, rfl⟩
      | returned | raised => cases hp
  | raised hcall hevents =>
      cases h' with
      | refused _ hp => cases hp
      | raised hcall' hevents' =>
          rw [hcall] at hcall'
          cases hcall'
          cases events_unique hevents hevents'
          exact ⟨rfl, rfl⟩

/-- The loop makes the same calls whenever it is run in the same world. -/
theorem Hands.exits_unique {steps : Nat} {p q : Value κ} {w v : World κ β}
    {calls last : List (Handed κ)} {o : Outcome κ β (Value κ)}
    (h : host.Hands driver executor steps p w calls q v)
    (hlast : host.Exits driver executor (steps + calls.length) q v last o) :
    ∀ {calls' last' : List (Handed κ)} {q' : Value κ} {v' : World κ β}
      {o' : Outcome κ β (Value κ)}, host.Hands driver executor steps p w calls' q' v' →
      host.Exits driver executor (steps + calls'.length) q' v' last' o' →
        calls' ++ last' = calls ++ last ∧ o' = o := by
  -- Neither run is left while the other goes on, since a call is answered or it is not.
  induction h with
  | here =>
      intro calls' last' q' v' o' h' hlast'
      cases h' with
      | here => exact hlast.unique hlast'
      | call hcall => exact absurd hcall hlast.not_answered
  | @call steps operation answer q w v u events calls hcall hevents _ ih =>
      intro calls' last' q' v' o' h' hlast'
      cases h' with
      | here => exact absurd hcall hlast'.not_answered
      | @call _ _ _ _ _ _ _ events' calls' hcall' hevents' hrest' =>
          rw [hcall] at hcall'
          cases hcall'
          cases events_unique hevents hevents'
          rw [Handed.length_cons] at hlast hlast'
          obtain ⟨hcalls, rfl⟩ := ih hlast hrest' hlast'
          exact ⟨by rw [List.cons_append, List.cons_append, hcalls], rfl⟩

theorem Completes.unique {p : Value κ} {w : World κ β} {calls calls' : List (Handed κ)}
    {o o' : Outcome κ β (Value κ)} (h : host.Completes driver executor p w calls o)
    (h' : host.Completes driver executor p w calls' o') : calls' = calls ∧ o' = o := by
  obtain ⟨first, q, v, last, hfirst, hlast, rfl⟩ := h
  obtain ⟨first', q', v', last', hfirst', hlast', rfl⟩ := h'
  rw [← Nat.zero_add first.length] at hlast
  rw [← Nat.zero_add first'.length] at hlast'
  exact hfirst.exits_unique hlast hfirst' hlast'

/-! ## The driver -/

/-- A loop that waits makes one call and goes on. -/
theorem going_waiting (lawful : host.Lawful) (hloop : driver ≠ .eager) (executor : Value κ)
    (steps : Nat) (operation : Value κ) :
    host.going driver executor steps (.pending operation) =
      (Action.log (driver.stepLine steps operation) >>= fun _ =>
        (host.result executor [operation]).mapFault driver.leaving >>=
          host.going driver executor (steps + 1)) := by
  refine Action.Approx.antisymm ?_ (going_pending lawful hloop executor steps operation)
  refine Action.limit_approx fun depth => ?_
  have hgoOn : ∀ steps q, driver.goOn (host.dispatch depth) executor steps q =
      driver.loop (driver.hand (host.dispatch depth) executor) depth steps q := fun steps q =>
    Driver.goOn_eq_loop hloop (host.dispatch depth) executor steps q
  have hgoing : ∀ q, (driver.loop (driver.hand (host.dispatch depth) executor) depth (steps + 1)
      q).Approx (host.going driver executor (steps + 1) q) := by
    intro q
    rw [← hgoOn]
    exact lawful.approx_fully (deepens_goOn driver executor (steps + 1) q) depth
  show (driver.goOn (host.dispatch depth) executor steps (.pending operation)).Approx _
  rw [hgoOn]
  cases depth with
  | zero => exact .of_unfinished _
  | succ depth =>
      -- The call takes one of the rounds.
      refine Action.Approx.bind (.refl _) fun _ => Action.Approx.bind ?_ fun q => ?_
      · exact (lawful.call_approx (depth + 1) executor [operation]).mapFault driver.leaving
      · exact (Driver.loop_more _ depth (steps + 1) q).trans (hgoing q)

/-- What the driver does from where the calls have come to is what is left of its run. -/
theorem Hands.going_run (lawful : host.Lawful) (hloop : driver ≠ .eager) {steps : Nat}
    {p q : Value κ} {w v : World κ β} {calls : List (Handed κ)}
    (h : host.Hands driver executor steps p w calls q v) :
    (host.going driver executor steps p).run w =
      (host.going driver executor (steps + calls.length) q).run v := by
  induction h with
  | here => rfl
  | @call steps operation answer q w v u events calls hcall _ _ ih =>
      have hanswer : ((host.result executor [operation]).mapFault driver.leaving).run
          (w.write (driver.stepLine steps operation)) = .value answer v := by
        rw [Outcome.run_mapFault, hcall]
        rfl
      calc
        (host.going driver executor steps (.pending operation)).run w
            = ((host.result executor [operation]).mapFault driver.leaving >>=
                host.going driver executor (steps + 1)).run
                  (w.write (driver.stepLine steps operation)) := by
              rw [going_waiting lawful hloop, Action.run_log_bind]
        _ = (host.going driver executor (steps + 1) answer).run v :=
              Action.run_bind_of_value _ hanswer
        _ = (host.going driver executor (steps + 1 + calls.length) q).run u := ih
        _ = _ := by rw [Handed.length_cons]

/-- Where the loop is left, so is the driver. -/
theorem Exits.going_run (lawful : host.Lawful) (hloop : driver ≠ .eager) {steps : Nat}
    {p : Value κ} {w : World κ β} {calls : List (Handed κ)} {o : Outcome κ β (Value κ)}
    (h : host.Exits driver executor steps p w calls o) :
    (host.going driver executor steps p).run w = o := by
  cases h with
  | returned value w =>
      exact (going_terminal lawful hloop executor steps value).run_eq
        (Action.run_log_bind _ _ w) trivial
  | refused w hp => exact (going_invalid lawful hloop executor steps hp).run_eq rfl trivial
  | @raised operation cause w v events hcall _ =>
      have hfault : ((host.result executor [operation]).mapFault driver.leaving).run
          (w.write (driver.stepLine steps operation)) = .fault (driver.leaving cause) v := by
        rw [Outcome.run_mapFault, hcall]
        rfl
      rw [going_waiting lawful hloop, Action.run_log_bind]
      exact Action.run_bind_of_fault _ hfault

/-- What the loop is given by the executor, at a depth that is enough for the call. -/
theorem hand_value (lawful : host.Lawful) {depth : Nat} {operation answer : Value κ}
    {w v : World κ β}
    (h : (driver.hand (host.dispatch depth) executor operation).run w = .value answer v) :
    (host.result executor [operation]).run w = .value answer v := by
  have happrox := (lawful.call_approx depth executor [operation]).mapFault driver.leaving
  have hchanged := happrox.run_eq h trivial
  rw [Outcome.run_mapFault] at hchanged
  cases hcall : (host.result executor [operation]).run w with
  | value =>
      rw [hcall] at hchanged
      exact hchanged
  | fault | unfinished =>
      rw [hcall] at hchanged
      cases hchanged

/-- What leaves the loop when the executor has failed. -/
theorem hand_fault (lawful : host.Lawful) {depth : Nat} {operation : Value κ} {cause : Fault κ}
    {w v : World κ β}
    (h : (driver.hand (host.dispatch depth) executor operation).run w = .fault cause v) :
    ∃ own, (host.result executor [operation]).run w = .fault own v ∧
      cause = driver.leaving own := by
  have happrox := (lawful.call_approx depth executor [operation]).mapFault driver.leaving
  have hchanged := happrox.run_eq h trivial
  rw [Outcome.run_mapFault] at hchanged
  cases hcall : (host.result executor [operation]).run w with
  | fault own u =>
      rw [hcall] at hchanged
      cases hchanged
      exact ⟨own, rfl, rfl⟩
  | value | unfinished =>
      rw [hcall] at hchanged
      cases hchanged

/-- Whatever ends has made its calls and was left. -/
theorem exists_exits (lawful : host.Lawful) (depth : Nat) :
    ∀ (rounds steps : Nat) (p : Value κ) (w : World κ β) (o : Outcome κ β (Value κ)),
      (driver.loop (driver.hand (host.dispatch depth) executor) rounds steps p).run w = o →
      o.Finished → ∃ calls q v last, host.Hands driver executor steps p w calls q v ∧
        host.Exits driver executor (steps + calls.length) q v last o := by
  intro rounds
  -- A round is spent on each call; who has no round left does not end.
  induction rounds with
  | zero =>
      intro steps p w o h ho
      cases h
      exact ho.elim
  | succ rounds ih =>
      intro steps p w o h ho
      cases p with
      | terminal value =>
          have hreturned : (driver.loop (driver.hand (host.dispatch depth) executor) (rounds + 1)
              steps (.terminal value)).run w = .value value (w.write (driver.finishLine steps)) :=
            Action.run_log_bind _ _ w
          rw [← h, hreturned]
          exact ⟨[], _, w, [], .here, .returned value w⟩
      | pending operation =>
          have hround : (driver.hand (host.dispatch depth) executor operation >>= fun next =>
              driver.loop (driver.hand (host.dispatch depth) executor) rounds (steps + 1) next).run
                (w.write (driver.stepLine steps operation)) = o :=
            (Action.run_log_bind _ _ w).symm.trans h
          -- The call has failed, or the loop goes on with its answer.
          rcases Action.run_bind_cases hround ho with
            ⟨cause, v, hhand, rfl⟩ | ⟨answer, v, hhand, hrest⟩
          · obtain ⟨own, hcall, rfl⟩ := hand_fault lawful hhand
            obtain ⟨events, hevents⟩ := exists_events lawful hcall rfl
            exact ⟨[], _, w, _, .here, .raised hcall hevents⟩
          · have hcall := hand_value lawful hhand
            obtain ⟨events, hevents⟩ := exists_events lawful hcall rfl
            obtain ⟨calls, q, u, last, hcalls, hlast⟩ := ih (steps + 1) answer v o hrest ho
            refine ⟨_, q, u, last, .call hcall hevents hcalls, ?_⟩
            rw [Handed.length_cons]
            exact hlast
      | _ =>
          cases h
          exact ⟨[], _, w, [], .here, .refused w rfl⟩

/-! ## The log -/

/-- While the log is on, the journal holds the line of each call and then what the call did. -/
theorem Hands.journal_eq {steps : Nat} {p q : Value κ} {w v : World κ β}
    {calls : List (Handed κ)} (h : host.Hands driver executor steps p w calls q v)
    (hon : ∀ calls q v, host.Hands driver executor steps p w calls q v → v.debug.enabled = true) :
    v.journal.reverse = w.journal.reverse ++ driver.announced steps calls := by
  induction h with
  | here => exact (List.append_nil _).symm
  | @call steps operation answer q w v u events calls hcall hevents _ ih =>
      have hv : v.journal.reverse =
          w.journal.reverse ++ .log (driver.stepLine steps operation) :: events := by
        rw [hevents, World.write_journal (hon _ _ _ .here)]
        simp only [List.reverse_append, List.reverse_cons, List.reverse_reverse,
          List.append_assoc, List.singleton_append]
      calc
        u.journal.reverse
            = v.journal.reverse ++ driver.announced (steps + 1) calls :=
              ih fun calls q z hcalls => hon _ q z (.call hcall hevents hcalls)
        _ = w.journal.reverse ++ driver.announced steps (⟨operation, events⟩ :: calls) := by
              rw [hv, Driver.announced, List.append_assoc]

/-- Where the loop is left, there may be one more call, and a value is reported. -/
theorem Exits.journal_eq {steps : Nat} {p : Value κ} {w u : World κ β}
    {calls : List (Handed κ)} {o : Outcome κ β (Value κ)}
    (h : host.Exits driver executor steps p w calls o) (hon : w.debug.enabled = true)
    (hu : o.world? = some u) :
    u.journal.reverse = w.journal.reverse ++ driver.announced steps calls ++
      driver.reported (steps + calls.length) o := by
  cases h with
  | returned value w =>
      cases hu
      rw [World.write_journal hon, List.reverse_cons, Driver.announced, List.append_nil]
      rfl
  | refused w hp =>
      cases hu
      simp only [Driver.announced, Driver.reported, List.append_nil]
  | @raised operation cause w v events hcall hevents =>
      cases hu
      rw [hevents, World.write_journal hon]
      simp [Driver.announced, Driver.reported]

theorem Completes.journal_eq {p : Value κ} {w u : World κ β} {calls : List (Handed κ)}
    {o : Outcome κ β (Value κ)} (h : host.Completes driver executor p w calls o)
    (hon : ∀ calls q v, host.Hands driver executor 0 p w calls q v → v.debug.enabled = true)
    (hu : o.world? = some u) :
    u.journal.reverse = w.journal.reverse ++ driver.announced 0 calls ++
      driver.reported calls.length o := by
  obtain ⟨first, q, v, last, hfirst, hlast, rfl⟩ := h
  have hv := hfirst.journal_eq hon
  calc
    u.journal.reverse
        = v.journal.reverse ++ driver.announced first.length last ++
            driver.reported (first.length + last.length) o :=
          hlast.journal_eq (hon first q v hfirst) hu
    _ = w.journal.reverse ++ driver.announced 0 (first ++ last) ++
          driver.reported (first ++ last).length o := by
          rw [hv, Driver.announced_append, Nat.zero_add, List.length_append,
            ← List.append_assoc w.journal.reverse]

/-! ## The whole run -/

/-- The loop is all that the driver does.  A run ends with an outcome exactly if the loop makes
some calls and is left with it, and then the calls are determined; whether or not it ends, after
any number of calls what is left of the run is what the driver does from there, and there is one
way to have made them.  So each operation is handed to the executor once, in order, and nothing
else is, whatever the executor does and however it answers.

If the log is on wherever the loop comes, the journal holds the first line, the line of each call
followed by what was done in the call, and, if a value is returned, the line that reports how many
calls there were. -/
theorem drive_hands (lawful : host.Lawful) (hloop : driver ≠ .eager) (executor p : Value κ)
    (w : World κ β) :
    let run := (host.fully fun d => driver.drive d executor p).run w
    let start := w.write (.started driver)
    (∀ o, o.Finished → (run = o ↔ ∃ calls, host.Completes driver executor p start calls o)) ∧
      (∀ calls o calls' o', host.Completes driver executor p start calls o →
        host.Completes driver executor p start calls' o' → calls' = calls ∧ o' = o) ∧
      (∀ calls q v, host.Hands driver executor 0 p start calls q v →
        run = (host.going driver executor calls.length q).run v ∧
          ∀ calls' q' v', host.Hands driver executor 0 p start calls' q' v' →
            calls'.length = calls.length → calls' = calls ∧ q' = q ∧ v' = v) ∧
      ((∀ calls q v, host.Hands driver executor 0 p start calls q v → v.debug.enabled = true) →
        (∀ calls q v, host.Hands driver executor 0 p start calls q v →
          v.journal.reverse =
            w.journal.reverse ++ .log (.started driver) :: driver.announced 0 calls) ∧
        ∀ calls o u, host.Completes driver executor p start calls o → o.world? = some u →
          u.journal.reverse =
            w.journal.reverse ++ .log (.started driver) :: driver.announced 0 calls ++
              driver.reported calls.length o) := by
  intro run start
  have hrun : run = (host.going driver executor 0 p).run start := by
    have hdriven : run = (host.driven driver executor p).run w := rfl
    rw [hdriven, driven_eq lawful, Action.run_log_bind]
    rfl
  refine ⟨fun o ho => ⟨fun h => ?_, ?_⟩, fun _ _ _ _ h h' => h.unique h', ?_, fun hon => ?_⟩
  · -- What ends at unbounded depth ends at some depth, where the rounds can be counted.
    rw [hrun] at h
    obtain ⟨depth, hdepth⟩ := Action.Rising.exists_of_limit h ho
    have hround := (congrArg (fun x => x.run start)
      (Driver.goOn_eq_loop hloop (host.dispatch depth) executor 0 p)).symm.trans hdepth
    obtain ⟨calls, q, v, last, hcalls, hlast⟩ :=
      exists_exits lawful depth depth 0 p start o hround ho
    rw [Nat.zero_add] at hlast
    exact ⟨_, calls, q, v, last, hcalls, hlast, rfl⟩
  · rintro ⟨_, first, q, v, last, hfirst, hlast, rfl⟩
    rw [hrun, hfirst.going_run lawful hloop, Nat.zero_add]
    exact hlast.going_run lawful hloop
  · intro calls q v h
    refine ⟨?_, fun _ _ _ h' hlength => h.unique h' hlength⟩
    rw [hrun, h.going_run lawful hloop, Nat.zero_add]
  · -- The log is on from the start, since the loop has then made no call.
    have hstart : start.journal.reverse = w.journal.reverse ++ [.log (.started driver)] := by
      have hw : w.debug.enabled = true := by
        have hhere := hon [] p start .here
        simp only [start, World.write] at hhere
        split at hhere <;> assumption
      rw [World.write_journal hw, List.reverse_cons]
    constructor
    · intro calls q v h
      rw [h.journal_eq hon, hstart, List.append_assoc, List.singleton_append]
    · intro calls o u h hu
      rw [h.journal_eq hon hu, hstart]
      simp only [List.append_assoc, List.cons_append, List.nil_append]

/-- An executor that leaves continuations alone: for each operation it drives a program of its
own, by another executor, and finishes with the value.  Its answer ends the run after one call. -/
theorem drive_hands_nested :
    let host := Script.host []
    let inner : Script.Expr := .function ["op"] (.strict .terminal [.lit (.int 7)])
    let executor : Value Script.Code := .fn (.callback (.function ["op"]
      (.strict .terminal [.strict .runStepped [inner, .strict (.programOf .getAll) []]])) [])
    let p : Value Script.Code := Request.toProgram (.getById (.text "a"))
    let w := Script.emptyStore
    ∃ calls u, host.Completes .stepped executor p (w.write (.started .stepped)) calls
        (.value (.int 7) u) ∧
      calls.length = 1 ∧
      (host.fully fun d => Driver.stepped.drive d executor p).run w = .value (.int 7) u ∧
      u.journal.reverse = .log (.started .stepped) :: Driver.stepped.announced 0 calls ++
        [.log (.finished .stepped (some 1))] := by
  intro host inner executor p w
  have lawful : host.Lawful := Script.host_lawful []
  let operation : Value Script.Code := .operation ⟨.getById (.text "a"), .fn .finish⟩
  let start := w.write (.started .stepped)
  obtain ⟨v, hcall, hv⟩ : ∃ v : World Script.Code Script.Stores,
      (host.result executor [operation]).run (start.write (Driver.stepped.stepLine 0 operation)) =
        .value (.terminal (.int 7)) v ∧ v.debug.enabled = true :=
    ⟨_, (lawful.call_approx 10 executor [operation]).run_eq rfl trivial, rfl⟩
  obtain ⟨events, hevents⟩ := exists_events lawful hcall rfl
  have hhands : host.Hands .stepped executor 0 p start [⟨operation, events⟩]
      (.terminal (.int 7)) v := .call hcall hevents .here
  -- The run comes to two worlds, the one before the call and the one after it.
  have hon : ∀ calls q z, host.Hands .stepped executor 0 p start calls q z →
      z.debug.enabled = true := by
    intro calls q z h
    have h : host.Hands .stepped executor 0 (.pending operation) start calls q z := h
    cases h with
    | here => rfl
    | call hcall' _ hrest =>
        cases hcall.symm.trans hcall'
        cases hrest
        exact hv
  have hcompletes : host.Completes .stepped executor p start [⟨operation, events⟩]
      (.value (.int 7) (v.write (.finished .stepped (some 1)))) :=
    ⟨_, _, v, [], hhands, .returned _ v, rfl⟩
  have hloop : Driver.stepped ≠ .eager := by simp
  obtain ⟨hrun, _, _, hlog⟩ := drive_hands lawful hloop executor p w
  exact ⟨_, _, hcompletes, rfl,
    (hrun (.value (.int 7) _) trivial).2 ⟨_, hcompletes⟩, (hlog hon).2 _ _ _ hcompletes rfl⟩

end Host

end Workflow
