import Workflow.Backend

/-!
# Driving a program

The three drivers.  Eager evaluation hands the executor an operation whose continuation already
evaluates the rest of the program and answers with the final value, so it nests as deep as the
program is long.  The stepped driver is a loop: the executor is handed each operation in turn and
answers with the next program, so programs of any length run without nesting.  The awaited driver
is the same loop over an executor whose answers are awaited, one operation at a time and in
program order.
-/

namespace Workflow

variable {κ β : Type}

/-! ## Eager evaluation -/

/-- Evaluates a program, or the rest of one. -/
def evaluateRest (dispatch : Dispatch κ β) (executor : Value κ) :
    Value κ → Action κ β (Value κ)
  | .terminal value => pure value
  | .pending operation => do
      .log (.step .eager none operation)
      let operation ← mapOperation (.fn (.evalRest executor)) operation
      dispatch.apply executor [operation]
  | value => .fail (.invalidProgram value)

/-- Evaluates a program to its value. -/
def evaluate (dispatch : Dispatch κ β) (executor program : Value κ) :
    Action κ β (Value κ) := do
  .log (.started .eager)
  let value ← evaluateRest dispatch executor program
  .log (.finished .eager none)
  return value

/-! ## Stepped runs -/

/-- Goes on from `current`, which was reached after `steps` steps. -/
def runFrom (dispatch : Dispatch κ β) (executor : Value κ) :
    Nat → Nat → Value κ → Action κ β (Value κ)
  | 0, _, _ => .unfinished
  | rounds + 1, steps, current =>
      match current with
      | .terminal value => do
          .log (.finished .stepped (some steps))
          return value
      | .pending operation => do
          .log (.step .stepped (some steps) operation)
          runFrom dispatch executor rounds (steps + 1) (← dispatch.apply executor [operation])
      | value => .fail (.invalidProgram value)

/-- Runs a program to its value. -/
def runStepped (dispatch : Dispatch κ β) (executor program : Value κ) :
    Action κ β (Value κ) := do
  .log (.started .stepped)
  runFrom dispatch executor dispatch.rounds 0 program

/-! ## Awaited runs -/

/-- Goes on from `current`, which was reached after `steps` awaited steps. -/
def runAwaitedFrom (dispatch : Dispatch κ β) (executor : Value κ) :
    Nat → Nat → Value κ → Action κ β (Value κ)
  | 0, _, _ => .unfinished
  | rounds + 1, steps, current =>
      match current with
      | .terminal value => do
          .log (.finished .awaited (some steps))
          return value
      | .pending operation => do
          .log (.step .awaited (some steps) operation)
          let next ← await (dispatch.apply executor [operation])
          runAwaitedFrom dispatch executor rounds (steps + 1) next
      | value => .fail (.invalidProgram value)

/-- Runs a program to its value, awaiting each step. -/
def runAwaited (dispatch : Dispatch κ β) (executor program : Value κ) :
    Action κ β (Value κ) := do
  .log (.started .awaited)
  runAwaitedFrom dispatch executor dispatch.rounds 0 program

/-! ## The three under one name -/

namespace Driver

/-- Drives a program to its value. -/
def drive (driver : Driver) (dispatch : Dispatch κ β) (executor program : Value κ) :
    Action κ β (Value κ) :=
  match driver with
  | .eager => evaluate dispatch executor program
  | .stepped => runStepped dispatch executor program
  | .awaited => runAwaited dispatch executor program

/-- The built-in executor over a backend. -/
def executorOver (driver : Driver) (backend : Backend (Value κ)) : Value κ :=
  match driver with
  | .eager | .stepped => .fn (.executor backend)
  | .awaited => .fn (.asyncExecutor backend)

end Driver

end Workflow
