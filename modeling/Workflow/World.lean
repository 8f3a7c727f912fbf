import Workflow.Fault
import Workflow.Log

/-!
# The world and what runs in it

A computation of the library is an `Action`: started in a world, it ends with a value or a fault
and the world it has left, or it does not end within the depth that it may use.  A world holds
the journal of what was done in it, the debug setting, and an outside state of type `β` that
belongs to backends and callbacks alone.

Programs are built from functions that the library does not know.  A `Host` is their meaning:
how a callback answers, and how a routine body starts, goes on and is closed.  The library calls
function values, its own and the host's, through a `Dispatch`, which bounds how deep calls may
nest and how many rounds a loop may take; running out of either leaves an action unfinished.
-/

namespace Workflow

/-- Something that was done and can be observed. -/
inductive Event (κ : Type) where
  | call (request : Request (Value κ))
  | trace (label : String) (value : Value κ)
  | log (line : LogLine κ)

/-- Everything an action can read and change. -/
structure World (κ β : Type) where
  /-- What was done, the latest first. -/
  journal : List (Event κ)
  debug : Debug
  outside : β

/-- How an action ends. -/
inductive Outcome (κ β α : Type) where
  | value (a : α) (world : World κ β)
  | fault (cause : Fault κ) (world : World κ β)
  /-- The action needs more depth than it may use. -/
  | unfinished

/-- A computation in a world. -/
def Action (κ β α : Type) := World κ β → Outcome κ β α

namespace Action

variable {κ β α γ : Type}

@[inline] def run (action : Action κ β α) (world : World κ β) : Outcome κ β α :=
  action world

@[inline] protected def pure (a : α) : Action κ β α :=
  fun world => .value a world

/-- Runs one action, then another on its value, in the world that the first has left. -/
@[inline] protected def bind (action : Action κ β α) (next : α → Action κ β γ) :
    Action κ β γ := fun world =>
  match action world with
  | .value a world => next a world
  | .fault cause world => .fault cause world
  | .unfinished => .unfinished

@[always_inline]
instance : Monad (Action κ β) where
  pure := Action.pure
  bind := Action.bind

@[inline] def fail (cause : Fault κ) : Action κ β α :=
  fun world => .fault cause world

@[inline] def unfinished : Action κ β α :=
  fun _ => .unfinished

/-- Runs an action and hands over a fault as a result of its own. -/
@[inline] def attempt (action : Action κ β α) : Action κ β (Except (Fault κ) α) := fun world =>
  match action world with
  | .value a world => .value (.ok a) world
  | .fault cause world => .value (.error cause) world
  | .unfinished => .unfinished

@[inline] def ofExcept : Except (Fault κ) α → Action κ β α
  | .ok a => Action.pure a
  | .error cause => fail cause

@[always_inline]
instance : MonadLift (Except (Fault κ)) (Action κ β) where
  monadLift := ofExcept

@[inline] def mapFault (change : Fault κ → Fault κ) (action : Action κ β α) : Action κ β α :=
  fun world =>
    match action world with
    | .value a world => .value a world
    | .fault cause world => .fault (change cause) world
    | .unfinished => .unfinished

/-- Runs an action inside a body that no stop signal may leave. -/
@[inline] def within (boundary : Boundary) (action : Action κ β α) : Action κ β α :=
  mapFault (Fault.crossing boundary) action

@[inline] def outside : Action κ β β :=
  fun world => .value world.outside world

@[inline] def modifyOutside (change : β → β) : Action κ β Unit :=
  fun world => .value () { world with outside := change world.outside }

@[inline] def debug : Action κ β Debug :=
  fun world => .value world.debug world

@[inline] def modifyDebug (change : Debug → Debug) : Action κ β Unit :=
  fun world => .value () { world with debug := change world.debug }

@[inline] def record (event : Event κ) : Action κ β Unit :=
  fun world => .value () { world with journal := event :: world.journal }

/-- Writes a line to the debug log if the log is on. -/
@[inline] def log (line : LogLine κ) : Action κ β Unit := fun world =>
  if world.debug.enabled then
    .value () { world with journal := .log line :: world.journal }
  else
    .value () world

/-! ## Laws -/

@[simp] theorem run_pure (a : α) (world : World κ β) :
    (pure a : Action κ β α).run world = .value a world := rfl

@[simp] theorem run_fail (cause : Fault κ) (world : World κ β) :
    (fail cause : Action κ β α).run world = .fault cause world := rfl

theorem run_bind_of_value {action : Action κ β α} {world world' : World κ β} {a : α}
    (next : α → Action κ β γ) (h : action.run world = .value a world') :
    (action >>= next).run world = (next a).run world' := by
  simp only [run] at h
  simp only [run, bind, Action.bind, h]

theorem run_bind_of_fault {action : Action κ β α} {world world' : World κ β} {cause : Fault κ}
    (next : α → Action κ β γ) (h : action.run world = .fault cause world') :
    (action >>= next).run world = .fault cause world' := by
  simp only [run] at h
  simp only [run, bind, Action.bind, h]

instance : LawfulMonad (Action κ β) :=
  LawfulMonad.mk' _
    (fun action => by
      funext world
      simp only [Functor.map, Action.bind, Function.comp]
      cases action world <;> rfl)
    (fun _ _ => rfl)
    (fun action _ _ => by
      funext world
      simp only [bind, Action.bind]
      cases action world <;> rfl)

end Action

/-! ## What callers bring along -/

/-- The calls that are left to an action. -/
structure Dispatch (κ β : Type) where
  /-- Calls a value with arguments. -/
  apply : Value κ → List (Value κ) → Action κ β (Value κ)
  /-- How many rounds a loop may take. -/
  rounds : Nat

/-- How far a routine body has come: it waits at a yield, or it has returned. -/
inductive Progress (κ σ : Type) where
  | yielded (value : Value κ) (body : σ)
  | returned (value : Value κ)

/-- The meaning of the code `κ` of the caller, with `β` its state and `σ` the type of suspended
routine bodies. -/
structure Host (κ β σ : Type) where
  /-- Calls a callback, closed over named values, with arguments. -/
  callback : Dispatch κ β → κ → Scope κ → List (Value κ) → Action κ β (Value κ)
  /-- Makes a routine body ready; nothing of it has run. -/
  start : κ → Scope κ → List (Value κ) → Action κ β σ
  /-- Sends a value to a body, which runs to its next yield or to its end.  The value sent to a
  body that has not begun is not used. -/
  advance : Dispatch κ β → σ → Value κ → Action κ β (Progress κ σ)
  /-- Ends a body where it waits. -/
  close : Dispatch κ β → σ → Action κ β Unit

end Workflow
