import Workflow.Value.Display

/-!
# The drivers and their debug log

The three ways to drive a program and the words for them, the lines that drivers write while debug
logging is on, and the setting that decides it.  The setting follows a variable of the environment,
but only when it is configured: a change of the variable alone has no effect on the log.
-/

namespace Workflow

/-! ## Drivers -/

/-- The three ways to drive a program. -/
inductive Driver where
  /-- The executor's continuation evaluates the rest of the program. -/
  | eager
  /-- A loop in which the executor answers each operation with the next program. -/
  | stepped
  /-- The same loop over awaited answers. -/
  | awaited
  deriving DecidableEq

namespace Driver

/-- The name that a driver's log lines begin with. -/
def label : Driver → String
  | .eager => "eval_icrud"
  | .stepped => "run_icrud"
  | .awaited => "run_icrud_async"

/-- The word by which a step of a session names a driver. -/
def word : Driver → String
  | .eager => "eval"
  | .stepped => "run"
  | .awaited => "async"

def all : List Driver :=
  [.eager, .stepped, .awaited]

end Driver

/-! ## Log lines -/

inductive LogLine (κ : Type) where
  | started (driver : Driver)
  /-- An operation is about to be handed to the executor. -/
  | step (driver : Driver) (index : Option Nat) (operation : Value κ)
  /-- The program has finished, after this many steps where the driver counts them. -/
  | finished (driver : Driver) (steps : Option Nat)

namespace LogLine

variable {κ : Type}

def message : LogLine κ → String
  | .started driver => driver.label ++ " started"
  | .step driver none operation => driver.label ++ " step: " ++ operation.display
  | .step driver (some index) operation =>
      driver.label ++ " step " ++ toString index ++ ": " ++ operation.display
  | .finished driver none => driver.label ++ " finished"
  | .finished driver (some steps) =>
      driver.label ++ " finished after " ++ toString steps ++ " step(s)"

end LogLine

/-! ## The debug setting -/

/-- The debug setting: what the environment says and what was last configured from it. -/
structure Debug where
  /-- The environment variable, if it is set. -/
  environment : Option String := none
  enabled : Bool := false

namespace Debug

/-- Whether the environment asks for the log: the variable is 1, true or yes in any case.  Upper
case is lowered for ASCII letters only, which suffices because no other character lowers to a
letter of these words. -/
def requested (debug : Debug) : Bool :=
  match debug.environment with
  | none => false
  | some text => ["1", "true", "yes"].contains text.toLower

/-- Makes the log follow the environment as it is now. -/
def configure (debug : Debug) : Debug :=
  { debug with enabled := debug.requested }

end Debug

end Workflow
