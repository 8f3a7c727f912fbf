import Workflow.Call
import Workflow.Query
import Workflow.Drive

/-!
# Relations that actions respect

A `Congruence` relates actions that end with results of one type.  It holds between any two
actions that are put together in the same way, from the operations on actions, out of parts that
it holds between.  Whatever the library does with two dispatches whose calls are related is then
related, one statement for each definition of the library, down to `Host.call` itself.

A host need not be put together from these operations, so for a host it is a property:
`Host.Respects`.
-/

namespace Workflow

variable {κ β σ : Type}

/-- Changing a fault is catching it and failing with another one. -/
theorem Action.mapFault_eq_attempt {α : Type} (change : Fault κ → Fault κ) (x : Action κ β α) :
    x.mapFault change =
      x.attempt >>= fun
        | .ok a => pure a
        | .error cause => .fail (change cause) := by
  funext w
  simp only [Action.mapFault, Action.attempt, Bind.bind, Action.bind]
  cases x w <;> rfl

/-- A relation between actions that the operations on actions respect. -/
structure Congruence (κ β : Type) where
  rel : {α : Type} → Action κ β α → Action κ β α → Prop
  value : ∀ {α : Type} (a : α), rel (pure a) (pure a)
  fault : ∀ {α : Type} (cause : Fault κ), rel (.fail cause : Action κ β α) (.fail cause)
  unfinished : ∀ {α : Type}, rel (.unfinished : Action κ β α) .unfinished
  bind : ∀ {α γ : Type} {x y : Action κ β α} {f g : α → Action κ β γ},
    rel x y → (∀ a, rel (f a) (g a)) → rel (x >>= f) (y >>= g)
  attempt : ∀ {α : Type} {x y : Action κ β α}, rel x y → rel x.attempt y.attempt
  record : ∀ event : Event κ, rel (.record event) (.record event)
  log : ∀ line : LogLine κ, rel (.log line) (.log line)
  outside : rel .outside .outside
  modifyOutside : ∀ change : β → β, rel (.modifyOutside change) (.modifyOutside change)

namespace Congruence

variable (C : Congruence κ β)

/-- How many rounds two related loops may take: equally many, or the second more, if an action
that does not end is related to every other. -/
def Rounds (m n : Nat) : Prop :=
  m = n ∨ (m ≤ n ∧ ∀ {α : Type} (x : Action κ β α), C.rel .unfinished x)

/-- Two dispatches whose calls are related. -/
structure Dispatches (d d' : Dispatch κ β) : Prop where
  apply : ∀ f arguments, C.rel (d.apply f arguments) (d'.apply f arguments)
  rounds : C.Rounds d.rounds d'.rounds

variable {C}

theorem Rounds.refl (n : Nat) : C.Rounds n n :=
  Or.inl rfl

/-- The recursion of two related loops over their rounds. -/
theorem Rounds.recursion {motive : Nat → Nat → Prop}
    (zero : ∀ n, C.Rounds 0 n → motive 0 n)
    (succ : ∀ m n, C.Rounds m n → motive m n → motive (m + 1) (n + 1)) :
    ∀ {m n : Nat}, C.Rounds m n → motive m n := by
  -- On the left, since the right side never has fewer rounds.
  intro m
  induction m with
  | zero =>
      intro n h
      exact zero n h
  | succ m ih =>
      intro n h
      cases n with
      | zero =>
          rcases h with h | ⟨h, _⟩ <;> omega
      | succ n =>
          have hpred : C.Rounds m n := by
            rcases h with h | ⟨h, hu⟩
            · exact Or.inl (by omega)
            · exact Or.inr ⟨by omega, hu⟩
          exact succ m n hpred (ih hpred)

/-- A loop without rounds is related to the same loop with the rounds of the other side. -/
theorem Rounds.unfinished_rel {α : Type} {n : Nat} (h : C.Rounds 0 n)
    (loop : Nat → Action κ β α) (hloop : loop 0 = .unfinished) : C.rel .unfinished (loop n) := by
  rcases h with rfl | ⟨_, hu⟩
  · rw [hloop]
    exact C.unfinished
  · exact hu (loop n)

/-! ## Operations on actions -/

theorem lift {α : Type} (result : Except (Fault κ) α) :
    C.rel (liftM result : Action κ β α) (liftM result) := by
  cases result with
  | ok a => exact C.value a
  | error cause => exact C.fault cause

theorem mapFault {α : Type} {x y : Action κ β α} (change : Fault κ → Fault κ)
    (h : C.rel x y) : C.rel (x.mapFault change) (y.mapFault change) := by
  rw [Action.mapFault_eq_attempt change x, Action.mapFault_eq_attempt change y]
  refine C.bind (C.attempt h) ?_
  rintro (cause | a)
  · exact C.fault (change cause)
  · exact C.value a

theorem within {α : Type} {x y : Action κ β α} (boundary : Boundary) (h : C.rel x y) :
    C.rel (x.within boundary) (y.within boundary) :=
  mapFault _ h

theorem await {α : Type} {x y : Action κ β α} (h : C.rel x y) :
    C.rel (Workflow.await x) (Workflow.await y) :=
  within _ h

/-! ## Programs and queries -/

variable {d d' : Dispatch κ β}

theorem mapProgram (h : C.Dispatches d d') (f program : Value κ) :
    C.rel (Workflow.mapProgram d f program) (Workflow.mapProgram d' f program) := by
  cases program with
  | terminal value => exact C.bind (h.apply f [value]) fun _ => C.value _
  | pending operation => exact C.bind (lift _) fun _ => C.value _
  | _ => exact C.fault _

theorem andThen (h : C.Dispatches d d') (program f : Value κ) :
    C.rel (Workflow.andThen d program f) (Workflow.andThen d' program f) := by
  cases program with
  | terminal value => exact h.apply f [value]
  | pending operation => exact C.bind (lift _) fun _ => C.value _
  | _ => exact C.fault _

theorem pair (h : C.Dispatches d d') (first second : Value κ) :
    C.rel (Workflow.pair d first second) (Workflow.pair d' first second) :=
  andThen h _ _

theorem sequenceFrom (h : C.Dispatches d d') :
    ∀ programs results : List (Value κ),
      C.rel (Workflow.sequenceFrom d programs results) (Workflow.sequenceFrom d' programs results)
  | [], _ => C.value _
  | program :: remaining, results => by
      cases program with
      | terminal value => exact sequenceFrom h remaining (value :: results)
      | _ => exact andThen h _ _

theorem sequence (h : C.Dispatches d d') (programs : Value κ) :
    C.rel (Workflow.sequence d programs) (Workflow.sequence d' programs) :=
  C.bind (lift _) fun _ => sequenceFrom h _ _

theorem mapItems (h : C.Dispatches d d') (f : Value κ) :
    ∀ items : List (Value κ), C.rel (Workflow.mapItems d f items) (Workflow.mapItems d' f items)
  | [] => C.value _
  | item :: rest => by
      refine C.bind (h.apply f [item]) fun answer => ?_
      exact C.bind (mapItems h f rest) fun _ => C.value _

theorem traverse (h : C.Dispatches d d') (f items : Value κ) :
    C.rel (Workflow.traverse d f items) (Workflow.traverse d' f items) := by
  refine C.bind (lift _) fun listed => ?_
  exact C.bind (mapItems h f listed) fun _ => sequenceFrom h _ _

theorem wrapping {x y : Action κ β (Value κ)} (h : C.rel x y) :
    C.rel (Query.wrapping x) (Query.wrapping y) :=
  C.bind h fun _ => lift _

theorem queryZip (h : C.Dispatches d d') (program other : Value κ) :
    C.rel (Query.zip d program other) (Query.zip d' program other) := by
  cases other with
  | query second => exact wrapping (pair h program second)
  | _ => exact C.fault _

theorem querySequence (h : C.Dispatches d d') (queries : Value κ) :
    C.rel (Query.sequence d queries) (Query.sequence d' queries) :=
  C.bind (lift _) fun _ => wrapping (sequenceFrom h _ _)

/-! ## Backends and drivers -/

theorem resolve (h : C.Dispatches d d') (backend : Backend (Value κ)) (operation : Value κ) :
    C.rel (backend.resolve d operation) (backend.resolve d' operation) := by
  cases operation with
  | operation op =>
      rcases op with ⟨request, next⟩
      refine C.bind (C.record _) fun _ => ?_
      cases request with
      | getById id => exact h.apply _ _
      | getAll => exact C.bind (h.apply _ _) fun _ => C.bind (lift _) fun _ => C.value _
      | update id doc => exact C.bind (h.apply _ _) fun _ => C.value _
      | create doc => exact h.apply _ _
  | _ => exact C.fault _

theorem resolveAsync (h : C.Dispatches d d') (backend : Backend (Value κ))
    (operation : Value κ) :
    C.rel (backend.resolveAsync d operation) (backend.resolveAsync d' operation) := by
  cases operation with
  | operation op =>
      rcases op with ⟨request, next⟩
      refine C.bind (C.record _) fun _ => ?_
      cases request with
      | getById id => exact await (h.apply _ _)
      | getAll => exact C.bind (await (h.apply _ _)) fun _ => C.bind (lift _) fun _ => C.value _
      | update id doc => exact C.bind (await (h.apply _ _)) fun _ => C.value _
      | create doc => exact await (h.apply _ _)
  | _ => exact C.fault _

theorem execute (h : C.Dispatches d d') (backend : Backend (Value κ)) (operation : Value κ) :
    C.rel (backend.execute d operation) (backend.execute d' operation) := by
  cases operation with
  | operation op => exact C.bind (resolve h backend _) fun _ => h.apply _ _
  | _ => exact C.fault _

theorem executeAsync (h : C.Dispatches d d') (backend : Backend (Value κ))
    (operation : Value κ) :
    C.rel (backend.executeAsync d operation) (backend.executeAsync d' operation) := by
  cases operation with
  | operation op => exact C.bind (await (resolveAsync h backend _)) fun _ => h.apply _ _
  | _ => exact C.fault _

theorem evaluateRest (h : C.Dispatches d d') (executor program : Value κ) :
    C.rel (Workflow.evaluateRest d executor program)
      (Workflow.evaluateRest d' executor program) := by
  cases program with
  | terminal value => exact C.value _
  | pending operation =>
      refine C.bind (C.log _) fun _ => ?_
      exact C.bind (lift _) fun _ => h.apply _ _
  | _ => exact C.fault _

theorem evaluate (h : C.Dispatches d d') (executor program : Value κ) :
    C.rel (Workflow.evaluate d executor program) (Workflow.evaluate d' executor program) := by
  refine C.bind (C.log _) fun _ => ?_
  refine C.bind (evaluateRest h executor program) fun _ => ?_
  exact C.bind (C.log _) fun _ => C.value _

theorem runFrom (h : C.Dispatches d d') (executor : Value κ) {m n : Nat} (hr : C.Rounds m n) :
    ∀ (steps : Nat) (current : Value κ),
      C.rel (Workflow.runFrom d executor m steps current)
        (Workflow.runFrom d' executor n steps current) := by
  refine Rounds.recursion (motive := fun m n => ∀ steps current,
    C.rel (Workflow.runFrom d executor m steps current)
      (Workflow.runFrom d' executor n steps current)) ?_ ?_ hr
  · intro n hr steps current
    exact hr.unfinished_rel (fun n => Workflow.runFrom d' executor n steps current) rfl
  · intro m n _ ih steps current
    -- Only a step goes on to another round.
    cases current with
    | terminal value => exact C.bind (C.log _) fun _ => C.value _
    | pending operation =>
        refine C.bind (C.log _) fun _ => ?_
        exact C.bind (h.apply _ _) fun next => ih (steps + 1) next
    | _ => exact C.fault _

theorem runStepped (h : C.Dispatches d d') (executor program : Value κ) :
    C.rel (Workflow.runStepped d executor program) (Workflow.runStepped d' executor program) :=
  C.bind (C.log _) fun _ => runFrom h executor h.rounds 0 program

theorem runAwaitedFrom (h : C.Dispatches d d') (executor : Value κ) {m n : Nat}
    (hr : C.Rounds m n) :
    ∀ (steps : Nat) (current : Value κ),
      C.rel (Workflow.runAwaitedFrom d executor m steps current)
        (Workflow.runAwaitedFrom d' executor n steps current) := by
  refine Rounds.recursion (motive := fun m n => ∀ steps current,
    C.rel (Workflow.runAwaitedFrom d executor m steps current)
      (Workflow.runAwaitedFrom d' executor n steps current)) ?_ ?_ hr
  · intro n hr steps current
    exact hr.unfinished_rel (fun n => Workflow.runAwaitedFrom d' executor n steps current) rfl
  · intro m n _ ih steps current
    cases current with
    | terminal value => exact C.bind (C.log _) fun _ => C.value _
    | pending operation =>
        refine C.bind (C.log _) fun _ => ?_
        exact C.bind (await (h.apply _ _)) fun next => ih (steps + 1) next
    | _ => exact C.fault _

theorem runAwaited (h : C.Dispatches d d') (executor program : Value κ) :
    C.rel (Workflow.runAwaited d executor program) (Workflow.runAwaited d' executor program) :=
  C.bind (C.log _) fun _ => runAwaitedFrom h executor h.rounds 0 program

theorem drive (h : C.Dispatches d d') (driver : Driver) (executor program : Value κ) :
    C.rel (driver.drive d executor program) (driver.drive d' executor program) := by
  cases driver with
  | eager => exact evaluate h executor program
  | stepped => exact runStepped h executor program
  | awaited => exact runAwaited h executor program

end Congruence

/-! ## Hosts -/

/-- What the host does with related dispatches is related. -/
structure Host.Respects (host : Host κ β σ) (C : Congruence κ β) : Prop where
  callback : ∀ {d d' : Dispatch κ β}, C.Dispatches d d' → ∀ code captured arguments,
    C.rel (host.callback d code captured arguments) (host.callback d' code captured arguments)
  start : ∀ code captured arguments,
    C.rel (host.start code captured arguments) (host.start code captured arguments)
  advance : ∀ {d d' : Dispatch κ β}, C.Dispatches d d' → ∀ body sent,
    C.rel (host.advance d body sent) (host.advance d' body sent)
  close : ∀ {d d' : Dispatch κ β}, C.Dispatches d d' → ∀ body,
    C.rel (host.close d body) (host.close d' body)

namespace Host.Respects

variable {host : Host κ β σ} {C : Congruence κ β} {d d' : Dispatch κ β}

theorem feed (hc : host.Respects C) (h : C.Dispatches d d') :
    ∀ (values : List (Value κ)) (progress : Progress κ σ),
      C.rel (host.feed d progress values) (host.feed d' progress values)
  | [], _ => by
      simp only [Host.feed]
      exact C.value _
  | sent :: rest, progress => by
      cases progress with
      | yielded value body =>
          exact C.bind (hc.advance h body sent) fun _ => feed hc h rest _
      | returned value => exact C.value _

theorem closeWith (hc : host.Respects C) (h : C.Dispatches d d') (body : σ) (cause : Fault κ) :
    C.rel (host.closeWith d body cause) (host.closeWith d' body cause) :=
  C.bind (hc.close h body) fun _ => C.fault cause

theorem settle (hc : host.Respects C) (h : C.Dispatches d d') (rest : List (Value κ) → Value κ)
    {m n : Nat} (hr : C.Rounds m n) :
    ∀ (received : List (Value κ)) (progress : Progress κ σ),
      C.rel (host.settle d rest m received progress) (host.settle d' rest n received progress) := by
  refine Congruence.Rounds.recursion (motive := fun m n => ∀ received progress,
    C.rel (host.settle d rest m received progress) (host.settle d' rest n received progress))
    ?_ ?_ hr
  · intro n hr received progress
    exact hr.unfinished_rel (fun n => host.settle d' rest n received progress) rfl
  · intro m n _ ih received progress
    cases progress with
    | returned value => exact C.value _
    | yielded value body =>
        simp only [Host.settle]
        -- What is yielded is refused, is finished, or waits.
        split
        · exact hc.closeWith h body _
        · exact C.bind (hc.advance h body _) fun _ => ih _ _
        · exact C.bind (hc.close h body) fun _ => Congruence.andThen h _ _

theorem resume (hc : host.Respects C) (h : C.Dispatches d d') (code : κ) (captured : Scope κ)
    (arguments received : List (Value κ)) :
    C.rel (host.resume d code captured arguments received)
      (host.resume d' code captured arguments received) := by
  refine C.bind (hc.start code captured arguments) fun body => ?_
  refine C.bind (hc.advance h body .null) fun first => ?_
  exact C.bind (hc.feed h received first) fun _ => hc.settle h _ h.rounds _ _

theorem invoke (hc : host.Respects C) (h : C.Dispatches d d') (f : Callable κ)
    (arguments : List (Value κ)) :
    C.rel (host.invoke d f arguments) (host.invoke d' f arguments) := by
  unfold Host.invoke
  split
  · exact hc.callback h _ _ _
  · exact hc.resume h _ _ _ _
  · exact hc.resume h _ _ _ _
  · exact Congruence.execute h _ _
  · exact Congruence.executeAsync h _ _
  · exact C.value _
  · exact Congruence.lift _
  · exact C.value _
  · exact C.value _
  · exact C.bind (h.apply _ _) fun _ => h.apply _ _
  · exact Congruence.mapProgram h _ _
  · exact Congruence.andThen h _ _
  · exact Congruence.evaluateRest h _ _
  · exact Congruence.mapProgram h _ _
  · exact Congruence.sequenceFrom h _ _
  · exact C.fault _

theorem call (hc : host.Respects C) {m n : Nat} (hr : C.Rounds m n) :
    ∀ (f : Value κ) (arguments : List (Value κ)),
      C.rel (host.call m f arguments) (host.call n f arguments) := by
  refine Congruence.Rounds.recursion (motive := fun m n => ∀ f arguments,
    C.rel (host.call m f arguments) (host.call n f arguments)) ?_ ?_ hr
  · intro n hr f arguments
    exact hr.unfinished_rel (fun n => host.call n f arguments) rfl
  · intro m n hr ih f arguments
    -- A call hands its parts the calls of one level less.
    have hd : C.Dispatches ⟨host.call m, m⟩ ⟨host.call n, n⟩ := ⟨ih, hr⟩
    cases f with
    | fn f => exact hc.invoke hd f arguments
    | _ => exact C.fault _

/-- The calls that are left at two depths are related if the depths are. -/
theorem dispatch (hc : host.Respects C) {m n : Nat} (hr : C.Rounds m n) :
    C.Dispatches (host.dispatch m) (host.dispatch n) :=
  ⟨hc.call hr, hr⟩

end Host.Respects

end Workflow
