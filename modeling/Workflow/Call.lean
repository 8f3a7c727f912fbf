import Workflow.Program.Sequence
import Workflow.Routine
import Workflow.Drive

/-!
# Calling function values

The meaning of every `Callable`, and the knot between it and the combinators: a call that may
nest `depth + 1` deep hands its parts a dispatch that may nest `depth` deep.
-/

namespace Workflow

namespace Host

variable {κ β σ : Type}

/-- What a function value does with arguments. -/
def invoke (host : Host κ β σ) (dispatch : Dispatch κ β) :
    Callable κ → List (Value κ) → Action κ β (Value κ)
  | .callback code captured, arguments => host.callback dispatch code captured arguments
  | .routine code captured, arguments => host.resume dispatch code captured arguments []
  | .resumeRest code captured arguments received, [outcome] =>
      host.resume dispatch code captured arguments (received ++ [outcome])
  | .executor backend, [operation] => backend.execute dispatch operation
  | .asyncExecutor backend, [operation] => backend.executeAsync dispatch operation
  | .finish, [value] => pure (.terminal value)
  | .asProgram, [value] => do return ← asProgram value
  | .always value, [_] => pure value
  | .pairWith first, [second] => pure (.tuple [first, second])
  | .compose outer inner, [value] => do
      dispatch.apply outer [← dispatch.apply inner [value]]
  | .mapRest f, [program] => mapProgram dispatch f program
  | .thenRest f, [program] => andThen dispatch program f
  | .evalRest executor, [program] => evaluateRest dispatch executor program
  | .pairRest second, [first] => mapProgram dispatch (.fn (.pairWith first)) second
  | .sequenceRest remaining results, [value] =>
      sequenceFrom dispatch remaining (value :: results)
  | _, _ => .fail .wrongArity

/-- Calls a value with arguments, nesting at most `depth` deep. -/
def call (host : Host κ β σ) : Nat → Value κ → List (Value κ) → Action κ β (Value κ)
  | 0, _, _ => .unfinished
  | depth + 1, .fn f, arguments => host.invoke ⟨host.call depth, depth⟩ f arguments
  | _ + 1, value, _ => .fail (.notCallable value)

/-- The dispatch of calls that nest at most `depth` deep. -/
def dispatch (host : Host κ β σ) (depth : Nat) : Dispatch κ β :=
  ⟨host.call depth, depth⟩

end Host

end Workflow
