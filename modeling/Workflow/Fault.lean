import Workflow.Value.Display

/-!
# Faults

The causes for which a computation ends without a value, with the class and the message under
which each is reported.  Classes form a hierarchy, since a handler names a class and takes every
fault whose class lies below it.
-/

namespace Workflow

/-- The classes of faults, apart from those that only group others. -/
inductive FaultClass where
  | value
  | key
  | lookup
  | runtime
  | connection
  | typing
  | attribute
  | stop
  | script
  | invalidProgram
  | unknownOperation
  deriving DecidableEq

namespace FaultClass

def name : FaultClass → String
  | .value => "ValueError"
  | .key => "KeyError"
  | .lookup => "LookupError"
  | .runtime => "RuntimeError"
  | .connection => "ConnectionError"
  | .typing => "TypeError"
  | .attribute => "AttributeError"
  | .stop => "StopIteration"
  | .script => "ScriptError"
  | .invalidProgram => "InvalidProgramError"
  | .unknownOperation => "UnknownOperationError"

/-- The names of the classes that lie strictly between a class and the class of all faults. -/
def groups : FaultClass → List String
  | .key => ["LookupError"]
  | .connection => ["OSError"]
  | .invalidProgram | .unknownOperation => ["ICRUDError", "TypeError"]
  | _ => []

/-- The names that a handler may use for a class. -/
def ancestry (kind : FaultClass) : List String :=
  kind.name :: kind.groups ++ ["Exception"]

/-- The classes that a fault can be raised in by name. -/
def raisable : List FaultClass :=
  [.value, .key, .runtime, .lookup, .connection, .typing, .stop]

/-- The class of a name, among those that can be raised by name. -/
def named? (name : String) : Option FaultClass :=
  raisable.find? fun kind => kind.name == name

end FaultClass

/-- Where a stop signal may not leave: what was a request to stop iterating is reported there as
a fault of the body. -/
inductive Boundary where
  | generator
  | coroutine
  deriving DecidableEq

namespace Boundary

def name : Boundary → String
  | .generator => "generator"
  | .coroutine => "coroutine"

end Boundary

/-- Why a computation has no value. -/
inductive Fault (κ : Type) where
  /-- A value that is no program was met where one was to be walked. -/
  | invalidProgram (value : Value κ)
  /-- A value that is no operation was met where one was to be dispatched. -/
  | unknownOperation (value : Value κ)
  /-- A value that is no function was called. -/
  | notCallable (value : Value κ)
  /-- A value that lists nothing was iterated. -/
  | notIterable (value : Value κ)
  /-- A value lacks the member that was read. -/
  | missingMember (value : Value κ) (member : String)
  /-- A value that is no routine body was made into a routine. -/
  | notRoutine (value : Value κ)
  /-- A fault raised by a function of the caller or by a backend. -/
  | raised (kind : FaultClass) (message : String)
  /-- A look-up failed; the message shows the key. -/
  | missingKey (key : Value κ)
  /-- A stop signal reached the edge of a body. -/
  | escapedStop (boundary : Boundary)
  /-- A body yielded although it was being closed. -/
  | ignoredExit
  /-- A function was called with a number of arguments that it does not take. -/
  | wrongArity
  /-- A name stands for nothing. -/
  | unbound (name : String)
  /-- A form was given an operand that it does not take. -/
  | badOperand (form : String)

namespace Fault

variable {κ : Type}

def kind : Fault κ → FaultClass
  | .invalidProgram _ => .invalidProgram
  | .unknownOperation _ => .unknownOperation
  | .notCallable _ | .notIterable _ | .notRoutine _ => .typing
  | .missingMember _ _ => .attribute
  | .raised kind _ => kind
  | .missingKey _ => .key
  | .escapedStop _ | .ignoredExit => .runtime
  | .wrongArity | .unbound _ | .badOperand _ => .script

def message : Fault κ → String
  | .invalidProgram value =>
      "Expected a Program (Terminal or Pending), got " ++ value.kind ++ ": " ++ value.display ++
        "\nHint: a run_icrud executor must return the next Program, " ++
        "e.g. `operation.next(outcome)`"
  | .unknownOperation value =>
      "Unknown operation " ++ value.kind ++ ": expected GetById, GetAll, Update or Create"
  | .notCallable value => "'" ++ value.kind ++ "' object is not callable"
  | .notIterable value => "'" ++ value.kind ++ "' object is not iterable"
  | .missingMember value member =>
      "'" ++ value.kind ++ "' object has no attribute '" ++ member ++ "'"
  | .notRoutine value => "@do expects a generator function, got " ++ value.display
  | .raised _ message => message
  | .missingKey key => key.display
  | .escapedStop boundary => boundary.name ++ " raised StopIteration"
  | .ignoredExit => "generator ignored GeneratorExit"
  | .wrongArity => "arity"
  | .unbound name => "unbound " ++ name
  | .badOperand form => "bad operand for " ++ form

/-- The value that was refused, for the two faults that carry it on. -/
def offender? : Fault κ → Option (Value κ)
  | .invalidProgram value | .unknownOperation value => some value
  | _ => none

/-- A fault raised by name.  A key is reported by its displayed form, so that class has its own
cause. -/
def ofName (kind : FaultClass) (message : String) : Fault κ :=
  match kind with
  | .key => .missingKey (.text message)
  | kind => .raised kind message

/-- Whether a handler for the named class takes the fault. -/
def isA (fault : Fault κ) (name : String) : Bool :=
  fault.kind.ancestry.contains name

/-- What a fault turns into when it leaves a body through `boundary`. -/
def crossing (boundary : Boundary) (fault : Fault κ) : Fault κ :=
  if fault.kind = .stop then .escapedStop boundary else fault

end Fault

end Workflow
