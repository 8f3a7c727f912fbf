import Workflow.Program

/-!
# Programs in sequence

`sequence` runs programs one after the other and finishes with the list of their results.
Results are kept latest first until the end.  Finished programs are passed over at once; at the
first one that waits, what remains becomes its continuation.  A list element that is no program
is found only when its turn comes.
-/

namespace Workflow

variable {κ β : Type}

/-- Goes on with the programs that remain after `results`, latest first, were obtained. -/
def sequenceFrom (dispatch : Dispatch κ β) :
    List (Value κ) → List (Value κ) → Action κ β (Value κ)
  | [], results => pure (.terminal (.list results.reverse))
  | .terminal value :: remaining, results => sequenceFrom dispatch remaining (value :: results)
  | program :: remaining, results =>
      andThen dispatch program (.fn (.sequenceRest remaining results))

/-- The program of every result, in the order of the items. -/
def sequence (dispatch : Dispatch κ β) (programs : Value κ) : Action κ β (Value κ) := do
  sequenceFrom dispatch (← itemsOf programs) []

/-- Calls `f` on every item, in order. -/
def mapItems (dispatch : Dispatch κ β) (f : Value κ) :
    List (Value κ) → Action κ β (List (Value κ))
  | [] => pure []
  | item :: rest => do
      let answer ← dispatch.apply f [item]
      let answers ← mapItems dispatch f rest
      return answer :: answers

/-- The sequence of the programs that `f` makes of the items. -/
def traverse (dispatch : Dispatch κ β) (f items : Value κ) : Action κ β (Value κ) := do
  let programs ← mapItems dispatch f (← itemsOf items)
  sequenceFrom dispatch programs []

end Workflow
