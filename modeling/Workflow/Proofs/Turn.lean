import Workflow.Proofs.Lawful

/-!
# Drivers, step by step

The three drivers write their lines in the same places and refuse and report in their own words;
the stepped and the awaited one are the same loop.  Over a backend each of them takes the same
steps: ask the backend about an operation, then call the continuation on its answer
(`Host.turn`).
-/

namespace Workflow

variable {κ β σ α γ : Type}

/-! ## What is written and recorded on the way -/

namespace World

/-- The world once a line was written to the debug log. -/
def write (line : LogLine κ) (w : World κ β) : World κ β :=
  if w.debug.enabled then { w with journal := .log line :: w.journal } else w

@[simp] theorem write_outside (line : LogLine κ) (w : World κ β) :
    (w.write line).outside = w.outside := by
  unfold World.write
  split <;> rfl

/-- The world once an event was recorded. -/
def recorded (event : Event κ) (w : World κ β) : World κ β :=
  { w with journal := event :: w.journal }

theorem journal_suffix_write (line : LogLine κ) (w : World κ β) :
    w.journal <:+ (w.write line).journal := by
  unfold write
  split
  · exact List.suffix_cons _ _
  · exact List.suffix_refl _

end World

namespace Action

@[simp] theorem run_log (line : LogLine κ) (w : World κ β) :
    (log line : Action κ β Unit).run w = .value () (w.write line) := by
  simp only [run, log, World.write]
  split <;> rfl

theorem run_log_bind (line : LogLine κ) (next : Unit → Action κ β α) (w : World κ β) :
    (log line >>= next).run w = (next ()).run (w.write line) :=
  run_bind_of_value next (run_log line w)

@[simp] theorem mapFault_id (x : Action κ β α) : x.mapFault id = x := by
  apply Action.ext
  intro w
  simp only [run, mapFault]
  cases x w <;> rfl

end Action

namespace Driver

/-- The line that announces a step; the eager driver does not count its steps. -/
def stepLine (driver : Driver) (steps : Nat) (operation : Value κ) : LogLine κ :=
  match driver with
  | .eager => .step .eager none operation
  | .stepped => .step .stepped (some steps) operation
  | .awaited => .step .awaited (some steps) operation

/-- The line that reports the end of a program. -/
def finishLine (driver : Driver) (steps : Nat) : LogLine κ :=
  match driver with
  | .eager => .finished .eager none
  | .stepped => .finished .stepped (some steps)
  | .awaited => .finished .awaited (some steps)

/-- How a fault of a step leaves the driver. -/
def leaving (driver : Driver) : Fault κ → Fault κ :=
  match driver with
  | .eager | .stepped => id
  | .awaited => Fault.crossing .coroutine

/-- How the driver refuses to wait on a value that is no operation. -/
def refusal (driver : Driver) (value : Value κ) : Fault κ :=
  match driver with
  | .eager => .unknownOperation value
  | .stepped | .awaited => .missingMember value "next"

/-- What a driver that loops does with an operation. -/
def hand (driver : Driver) (d : Dispatch κ β) (executor operation : Value κ) :
    Action κ β (Value κ) :=
  (d.apply executor [operation]).mapFault driver.leaving

/-- The loop that the stepped and the awaited driver have in common. -/
def loop (driver : Driver) (hand : Value κ → Action κ β (Value κ)) :
    Nat → Nat → Value κ → Action κ β (Value κ)
  | 0, _, _ => .unfinished
  | rounds + 1, steps, current =>
      match current with
      | .terminal value => do
          .log (driver.finishLine steps)
          return value
      | .pending operation => do
          .log (driver.stepLine steps operation)
          loop driver hand rounds (steps + 1) (← hand operation)
      | value => .fail (.invalidProgram value)

/-- What a driver does after its first log line. -/
def goOn (driver : Driver) (d : Dispatch κ β) (executor : Value κ) (steps : Nat)
    (program : Value κ) : Action κ β (Value κ) :=
  match driver with
  | .eager => do
      let value ← evaluateRest d executor program
      .log (driver.finishLine steps)
      return value
  | .stepped | .awaited => driver.loop (driver.hand d executor) d.rounds steps program

end Driver

theorem runFrom_eq_loop (d : Dispatch κ β) (executor : Value κ) :
    ∀ (rounds steps : Nat) (current : Value κ),
      runFrom d executor rounds steps current =
        Driver.stepped.loop (Driver.stepped.hand d executor) rounds steps current
  | 0, _, _ => rfl
  | rounds + 1, steps, current => by
      cases current with
      | pending operation =>
          -- Its faults leave the stepped driver unchanged.
          have hhand : Driver.stepped.hand d executor operation = d.apply executor [operation] :=
            Action.mapFault_id _
          simp only [runFrom, Driver.loop, hhand, runFrom_eq_loop d executor rounds]
          rfl
      | _ => rfl

theorem runAwaitedFrom_eq_loop (d : Dispatch κ β) (executor : Value κ) :
    ∀ (rounds steps : Nat) (current : Value κ),
      runAwaitedFrom d executor rounds steps current =
        Driver.awaited.loop (Driver.awaited.hand d executor) rounds steps current
  | 0, _, _ => rfl
  | rounds + 1, steps, current => by
      cases current with
      | pending operation =>
          simp only [runAwaitedFrom, Driver.loop, runAwaitedFrom_eq_loop d executor rounds]
          rfl
      | _ => rfl

theorem Driver.drive_eq (driver : Driver) (d : Dispatch κ β) (executor program : Value κ) :
    driver.drive d executor program =
      (Action.log (.started driver) >>= fun _ => driver.goOn d executor 0 program) := by
  cases driver with
  | eager => rfl
  | stepped =>
      simp only [Driver.drive, runStepped, runFrom_eq_loop]
      rfl
  | awaited =>
      simp only [Driver.drive, runAwaited, runAwaitedFrom_eq_loop]
      rfl

/-! ## Asking a backend -/

/-- What a program is told once the backend has answered its request. -/
def Request.outcome (answer : Value κ) : Request (Value κ) → Except (Fault κ) (Value κ)
  | .getById _ | .create _ => .ok answer
  | .getAll => do return .list (← itemsOf answer)
  | .update _ _ => .ok .null

/-- Only a request for everything and an update make something else of their answer; a listing
that cannot be iterated fails after the call. -/
theorem Request.bind_outcome (x : Action κ β (Value κ)) (request : Request (Value κ)) :
    (x >>= fun answer => liftM (request.outcome answer)) =
      match request with
      | .getById _ | .create _ => x
      | .getAll => x >>= fun answer => liftM (itemsOf answer) >>= fun items => pure (.list items)
      | .update _ _ => x >>= fun _ => pure .null := by
  cases request with
  | getById id | create doc => exact bind_pure x
  | getAll =>
      refine congrArg (x >>= ·) (funext fun answer => ?_)
      simp only [Request.outcome]
      cases itemsOf answer <;> rfl
  | update id doc => rfl

namespace Backend

/-- The function that answers a request. -/
def functionFor (b : Backend (Value κ)) : Request (Value κ) → Value κ
  | .getById _ => b.getById
  | .getAll => b.getAll
  | .update _ _ => b.update
  | .create _ => b.create

/-- Resolving an operation is one call of one of the four functions, recorded before it. -/
theorem resolve_operation (d : Dispatch κ β) (b : Backend (Value κ))
    (op : Operation (Value κ)) :
    b.resolve d (.operation op) =
      (Action.record (.call op.request) >>= fun _ =>
        d.apply (b.functionFor op.request) op.request.operands >>= fun answer =>
          liftM (op.request.outcome answer)) := by
  rcases op with ⟨request, next⟩
  cases request with
  | getById | getAll | update | create =>
      simp only [Request.bind_outcome]
      rfl

/-- The same over awaited functions. -/
theorem resolveAsync_operation (d : Dispatch κ β) (b : Backend (Value κ))
    (op : Operation (Value κ)) :
    b.resolveAsync d (.operation op) =
      (Action.record (.call op.request) >>= fun _ =>
        await (d.apply (b.functionFor op.request) op.request.operands) >>= fun answer =>
          liftM (op.request.outcome answer)) := by
  rcases op with ⟨request, next⟩
  cases request with
  | getById | getAll | update | create =>
      simp only [Request.bind_outcome]
      rfl

end Backend

/-! ## Steps over a backend -/

namespace Host

variable (host : Host κ β σ)

/-- Asking a backend, at unbounded depth. -/
noncomputable def ask (b : Backend (Value κ)) (request : Request (Value κ)) :
    Action κ β (Value κ) :=
  host.fully fun d => b.resolve d (.operation ⟨request, .null⟩)

/-- One step of a run: the backend is asked, then the continuation is called on its answer. -/
noncomputable def turn (b : Backend (Value κ)) (op : Operation (Value κ)) :
    Action κ β (Value κ) := do
  let outcome ← host.ask b op.request
  host.result op.next [outcome]

/-- A run by the built-in executor over a backend, at unbounded depth. -/
noncomputable def drive (driver : Driver) (b : Backend (Value κ)) (program : Value κ) :
    Action κ β (Value κ) :=
  host.fully fun d => driver.drive d (driver.executorOver b) program

variable {host}

theorem deepens_goOn (driver : Driver) (executor : Value κ) (steps : Nat) (program : Value κ) :
    Deepens fun d : Dispatch κ β => driver.goOn d executor steps program := by
  intro d d' h
  cases driver with
  | eager =>
      exact (Congruence.evaluateRest h executor program).bind fun _ => .refl _
  | stepped =>
      -- The loop is the one of the library.
      simp only [Driver.goOn, ← runFrom_eq_loop]
      exact Congruence.runFrom h executor h.rounds steps program
  | awaited =>
      simp only [Driver.goOn, ← runAwaitedFrom_eq_loop]
      exact Congruence.runAwaitedFrom h executor h.rounds steps program

theorem deepens_drive (driver : Driver) (executor p : Value κ) :
    Deepens fun d : Dispatch κ β => driver.drive d executor p :=
  fun h => Congruence.drive h driver executor p

theorem deepens_resolve (b : Backend (Value κ)) (operation : Value κ) :
    Deepens fun d : Dispatch κ β => b.resolve d operation :=
  fun h => Congruence.resolve h b operation

theorem deepens_execute (b : Backend (Value κ)) (operation : Value κ) :
    Deepens fun d : Dispatch κ β => b.execute d operation :=
  fun h => Congruence.execute h b operation

theorem turn_eq_fully (lawful : host.Lawful) (b : Backend (Value κ))
    (op : Operation (Value κ)) :
    host.turn b op = host.fully fun d => b.execute d (.operation op) :=
  (lawful.fully_bind (deepens_resolve b _) fun outcome => fun h => h.apply op.next [outcome]).symm

/-- What the backend is told to do and what it answers, the call being recorded already. -/
noncomputable def answer (host : Host κ β σ) (b : Backend (Value κ))
    (request : Request (Value κ)) : Action κ β (Value κ) :=
  host.fully fun d =>
    d.apply (b.functionFor request) request.operands >>= fun answer =>
      liftM (request.outcome answer)

theorem ask_eq (lawful : host.Lawful) (b : Backend (Value κ)) (request : Request (Value κ)) :
    host.ask b request = (Action.record (.call request) >>= fun _ => host.answer b request) := by
  simp only [ask, Backend.resolve_operation]
  refine lawful.fully_bind_left _ fun _ => ?_
  intro d d' h
  exact (h.apply _ _).bind fun _ => .refl _

/-- A backend is asked by one recorded call, of which the program is told what fits its request. -/
theorem ask_eq_result (lawful : host.Lawful) (b : Backend (Value κ))
    (request : Request (Value κ)) :
    host.ask b request = (Action.record (.call request) >>= fun _ =>
      host.result (b.functionFor request) request.operands >>= fun answer =>
        liftM (request.outcome answer)) := by
  have hanswer : host.answer b request =
      (host.result (b.functionFor request) request.operands >>= fun answer =>
        liftM (request.outcome answer)) :=
    lawful.fully_bind_right (fun h => h.apply _ _) _
  rw [ask_eq lawful, hanswer]

/-- A run ends as it does at a depth that is enough for it. -/
theorem drive_of_run (lawful : host.Lawful) {driver : Driver} {b : Backend (Value κ)} {p : Value κ}
    {w : World κ β} {o : Outcome κ β (Value κ)} (depth : Nat)
    (h : (driver.drive (host.dispatch depth) (driver.executorOver b) p).run w = o)
    (ho : o.Finished) : (host.drive driver b p).run w = o :=
  (lawful.approx_fully (deepens_drive driver _ p) depth).run_eq h ho

theorem ask_blind (lawful : host.Lawful) (b : Backend (Value κ)) (request : Request (Value κ)) :
    (host.ask b request).Blind :=
  lawful.fully_blind (deepens_resolve b _) fun depth =>
    (Congruence.resolve (lawful.dispatch_blind depth) b _).2

theorem turn_blind (lawful : host.Lawful) (b : Backend (Value κ)) (op : Operation (Value κ)) :
    (host.turn b op).Blind :=
  (ask_blind lawful b op.request).bind fun outcome => lawful.result_blind op.next [outcome]

theorem answer_blind (lawful : host.Lawful) (b : Backend (Value κ))
    (request : Request (Value κ)) : (host.answer b request).Blind := by
  refine lawful.fully_blind ?_ fun depth => ?_
  · intro d d' h
    exact (h.apply _ _).bind fun _ => .refl _
  · refine Action.Blind.bind ((lawful.dispatch_blind depth).apply _ _).2 fun answer => ?_
    exact (Congruence.blind.lift _).2

/-- The call of the backend is recorded before anything else that a step does. -/
theorem turn_journal_suffix (lawful : host.Lawful) {b : Backend (Value κ)}
    {op : Operation (Value κ)} {w v : World κ β} {o : Outcome κ β (Value κ)}
    (h : (host.turn b op).run w = o) (ho : o.world? = some v) :
    (w.recorded (.call op.request)).journal <:+ v.journal := by
  -- What follows the mark only adds to the journal.
  have hturn : host.turn b op = (Action.record (.call op.request) >>= fun _ =>
      host.answer b op.request >>= fun outcome => host.result op.next [outcome]) := by
    simp only [turn, ask_eq lawful, bind_assoc]
  have hrest : (host.answer b op.request >>= fun outcome =>
      host.result op.next [outcome]).Blind :=
    (answer_blind lawful b op.request).bind fun outcome => lawful.result_blind op.next [outcome]
  rw [hturn] at h
  subst h
  exact hrest.journal_suffix ho

end Host

/-! ## Awaiting -/

theorem Fault.kind_crossing (boundary : Boundary) (cause : Fault κ) :
    (cause.crossing boundary).kind ≠ .stop := by
  unfold Fault.crossing
  split
  · simp [Fault.kind]
  · assumption

theorem Fault.crossing_of_ne (boundary : Boundary) {cause : Fault κ} (h : cause.kind ≠ .stop) :
    cause.crossing boundary = cause :=
  if_neg h

/-- A fault on its way out of a sequence is changed as on its way out of the part it comes from. -/
theorem Action.mapFault_bind (change : Fault κ → Fault κ) (x : Action κ β α)
    (f : α → Action κ β γ) :
    (x >>= f).mapFault change = x.mapFault change >>= fun a => (f a).mapFault change := by
  apply Action.ext
  intro w
  simp only [run, mapFault, Bind.bind, Action.bind]
  cases x w <;> rfl

theorem await_bind (x : Action κ β α) (f : α → Action κ β γ) :
    await (x >>= f) = await x >>= fun a => await (f a) :=
  Action.mapFault_bind _ x f

/-- A stop signal turns into a fault of another class at the first edge that it crosses. -/
@[simp] theorem await_await (x : Action κ β α) : await (await x) = await x := by
  apply Action.ext
  intro w
  simp only [await, Action.within, Action.mapFault, Action.run]
  cases x w with
  | fault cause w' =>
      simp only [Fault.crossing_of_ne _ (Fault.kind_crossing _ cause)]
  | _ => rfl

namespace Backend

theorem await_resolveAsync (d : Dispatch κ β) (b : Backend (Value κ)) (operation : Value κ) :
    await (b.resolveAsync d operation) = await (b.resolve d operation) := by
  cases operation with
  | operation op =>
      rcases op with ⟨request, next⟩
      cases request with
      | getById id | getAll | update id doc | create doc =>
          simp only [resolveAsync, resolve, await_bind, await_await]
  | _ => rfl

theorem await_executeAsync (d : Dispatch κ β) (b : Backend (Value κ)) (operation : Value κ) :
    await (b.executeAsync d operation) = await (b.execute d operation) := by
  cases operation with
  | operation op =>
      simp only [executeAsync, execute, await_bind, await_await, await_resolveAsync]
  | _ => rfl

end Backend

end Workflow
