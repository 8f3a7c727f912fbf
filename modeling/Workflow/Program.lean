import Workflow.World

/-!
# Programs and their combinators

A program is `terminal v` or `pending op`.  The combinators keep operations as they are and
change only what follows them: on a finished program a combinator acts at once, on a waiting one
it composes itself after the continuation, so that the driver's call of the continuation applies
it to the next program.
-/

namespace Workflow

variable {κ β : Type}

/-! ## Checks -/

/-- Accepts programs alone. -/
def ensureProgram (value : Value κ) : Except (Fault κ) (Value κ) :=
  if value.isProgram then .ok value else .error (.invalidProgram value)

/-- The program of a query; a program stays as it is. -/
def asProgram : Value κ → Except (Fault κ) (Value κ)
  | .query program => .ok program
  | value => ensureProgram value

/-- The items that a value lists. -/
def itemsOf (value : Value κ) : Except (Fault κ) (List (Value κ)) :=
  match value.items? with
  | some items => .ok items
  | none => .error (.notIterable value)

/-! ## Single steps -/

namespace Request

/-- The program that waits on a request and goes on with `next`. -/
def thenCall (request : Request (Value κ)) (next : Value κ) : Value κ :=
  .pending (.operation ⟨request, next⟩)

/-- The program that waits on a request and finishes with its outcome. -/
def toProgram (request : Request (Value κ)) : Value κ :=
  request.thenCall (.fn .finish)

end Request

/-! ## Combinators -/

/-- The same operation with `f` called on what its continuation answers. -/
def mapOperation (f : Value κ) : Value κ → Except (Fault κ) (Value κ)
  | .operation op => .ok (.operation { op with next := .fn (.compose f op.next) })
  | value => .error (.unknownOperation value)

/-- Applies `f` to the eventual result of a program. -/
def mapProgram (dispatch : Dispatch κ β) (f : Value κ) : Value κ → Action κ β (Value κ)
  | .terminal value => do return .terminal (← dispatch.apply f [value])
  | .pending operation => do return .pending (← mapOperation (.fn (.mapRest f)) operation)
  | value => .fail (.invalidProgram value)

/-- Continues with the program that `f` makes of a program's result. -/
def andThen (dispatch : Dispatch κ β) (program f : Value κ) : Action κ β (Value κ) :=
  match program with
  | .terminal value => dispatch.apply f [value]
  | .pending operation => do return .pending (← mapOperation (.fn (.thenRest f)) operation)
  | value => .fail (.invalidProgram value)

/-- The program of both results; the operations of `first` come before those of `second`. -/
def pair (dispatch : Dispatch κ β) (first second : Value κ) : Action κ β (Value κ) :=
  andThen dispatch first (.fn (.pairRest second))

end Workflow
