import Workflow.Script.Body

/-!
# Sessions

A session works through steps.  Each step evaluates or drives something, or changes the
surroundings: the present store, the environment, the debug setting.  What a step has changed
stays changed for the next ones also when the step fails, and its value can be given a name.
-/

namespace Workflow

open Workflow.Script

inductive Task where
  | eval (e : Expr)
  /-- Drives a program, or with `onQuery` the program of a query, by the given executor or the
  built-in one over the present store. -/
  | drive (driver : Driver) (onQuery : Bool) (program : Expr) (executor? : Option Expr)
  | resolve (operation : Expr)
  | resolveAsync (operation : Expr)
  /-- Puts a new store in the place of the present one. -/
  | store (memory : Memory Code)
  | environment (text : Option String)
  /-- Asks whether the environment requests the debug log. -/
  | enabled
  | configure

/-- A step of a session. -/
structure Step where
  task : Task
  /-- The global that the value is bound to if the step succeeds. -/
  name? : Option String := none
  /-- Whether events and documents are only counted in the answer. -/
  brief : Bool := false

/-- What a session keeps from step to step. -/
structure Session where
  globals : Scope Code := []
  debug : Debug := {}
  stores : Stores := {}

inductive Ending where
  | value (v : Value Code)
  | fault (cause : Fault Code)
  | unfinished

/-- What is told of a step. -/
structure Answer where
  step : Step
  ending : Ending
  events : List (Event Code)
  /-- The content of the present store after the step. -/
  docs : List (Value Code × Value Code)

namespace Session

/-- How deep calls may nest and how many rounds a loop may take in a session. -/
def depth : Nat := Nat.pow 2 40

/-- The calls of a session with these globals. -/
def dispatch (globals : Scope Code) : Dispatch Code Stores :=
  (Script.host globals).dispatch depth

def evaluate (globals : Scope Code) (e : Expr) : Act (Value Code) :=
  e.eval globals (dispatch globals) []

/-- The program that a step drives. -/
def programOf (driver : Driver) (onQuery : Bool) (value : Value Code) :
    Except (Fault Code) (Value Code) :=
  match onQuery, value with
  | false, value => .ok value
  | true, .query program => .ok program
  | true, _ => .error (.badOperand ("query_" ++ driver.word))

/-- The executor that a step drives a program by. -/
def executorFor (globals : Scope Code) (driver : Driver) : Option Expr → Act (Value Code)
  | some e => evaluate globals e
  | none => do return driver.executorOver (← presentBackend)

def perform (globals : Scope Code) : Task → Act (Value Code)
  | .eval e => evaluate globals e
  | .drive driver onQuery program executor? => do
      let program ← programOf driver onQuery (← evaluate globals program)
      let executor ← executorFor globals driver executor?
      driver.drive (dispatch globals) executor program
  | .resolve operation => do
      let operation ← evaluate globals operation
      (← presentBackend).resolve (dispatch globals) operation
  | .resolveAsync operation => do
      let operation ← evaluate globals operation
      await ((← presentBackend).resolveAsync (dispatch globals) operation)
  | .store memory => do
      .modifyOutside (·.add memory)
      return .null
  | .environment text => do
      .modifyDebug fun debug => { debug with environment := text }
      return .null
  | .enabled => do return .bool (← Action.debug).requested
  | .configure => do
      .modifyDebug Debug.configure
      return .bool (← Action.debug).enabled

/-- Binds the value of a step to its name, if it has one. -/
def bind (globals : Scope Code) (name? : Option String) (value : Value Code) : Scope Code :=
  match name? with
  | some name => globals.set name value
  | none => globals

def advance (session : Session) (step : Step) : Answer × Session :=
  match (perform session.globals step.task).run ⟨[], session.debug, session.stores⟩ with
  | .value v world =>
      (⟨step, .value v, world.journal.reverse, world.outside.docs⟩,
        ⟨bind session.globals step.name? v, world.debug, world.outside⟩)
  | .fault cause world =>
      (⟨step, .fault cause, world.journal.reverse, world.outside.docs⟩,
        ⟨session.globals, world.debug, world.outside⟩)
  | .unfinished => (⟨step, .unfinished, [], session.stores.docs⟩, session)

def answers (session : Session) : List Step → List Answer
  | [] => []
  | step :: rest =>
      let (answer, session) := session.advance step
      answer :: session.answers rest

/-- A new session over a store, its globals the functions that are defined. -/
def start (definitions : List (String × Expr)) (memory : Memory Code) : Session :=
  let defined := definitions.map fun entry => (⟨.eval entry.2, some entry.1, false⟩ : Step)
  defined.foldl (fun session step => (session.advance step).2)
    { stores := ({} : Stores).add memory }

end Session

end Workflow
