import Workflow.Program

/-!
# Routines

A routine writes a program as a body that yields programs and receives their results.  A body
can be gone through only once, but a program may be run many times, so every continuation starts
the body afresh and sends it the values received so far.  Finished programs are answered at once
by the same body; at a waiting program the body is closed and the rest becomes a continuation.
-/

namespace Workflow

namespace Host

variable {κ β σ : Type}

/-- Sends values to a body, oldest first, whatever it yields; a body that returns early gets no
more of them. -/
def feed (host : Host κ β σ) (dispatch : Dispatch κ β) :
    Progress κ σ → List (Value κ) → Action κ β (Progress κ σ)
  | progress, [] => pure progress
  | .returned value, _ :: _ => pure (.returned value)
  | .yielded _ body, sent :: rest => do
      feed host dispatch (← host.advance dispatch body sent) rest

/-- Closes a body and reports a fault, unless closing brings one of its own. -/
def closeWith (host : Host κ β σ) (dispatch : Dispatch κ β) (body : σ) (cause : Fault κ) :
    Action κ β (Value κ) := do
  host.close dispatch body
  .fail cause

/-- Goes on with a body that has received `received`, latest first, until it returns or yields a
program that waits.  `rest` makes the continuation out of the values received. -/
def settle (host : Host κ β σ) (dispatch : Dispatch κ β) (rest : List (Value κ) → Value κ) :
    Nat → List (Value κ) → Progress κ σ → Action κ β (Value κ)
  | 0, _, _ => .unfinished
  | _ + 1, _, .returned value => pure (.terminal value)
  | rounds + 1, received, .yielded value body =>
      match asProgram value with
      | .error cause => host.closeWith dispatch body cause
      | .ok (.terminal value) => do
          settle host dispatch rest rounds (value :: received)
            (← host.advance dispatch body value)
      | .ok program => do
          host.close dispatch body
          andThen dispatch program (rest received.reverse)

/-- The program of a routine body whose yields have received `received` so far, oldest first. -/
def resume (host : Host κ β σ) (dispatch : Dispatch κ β) (code : κ) (captured : Scope κ)
    (arguments received : List (Value κ)) : Action κ β (Value κ) := do
  let body ← host.start code captured arguments
  let progress ← host.feed dispatch (← host.advance dispatch body .null) received
  host.settle dispatch (fun values => .fn (.resumeRest code captured arguments values))
    dispatch.rounds received.reverse progress

end Host

end Workflow
