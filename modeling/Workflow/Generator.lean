import Workflow.Program

/-!
# Generators

The bodies of routines as generator functions have them.  A generator runs until it yields, waits
there for a value to be sent, and can be closed where it waits.  What expressions mean is left to a
`Language`; statements mean the same in every language.

A generator that has begun is one block of statements that are left to run, with the compound
statements around it, innermost first.  When a block ends, its `Completion` is handed to the
compound statement around it.  Closing raises an exit signal at the yield where the body waits.
The signal passes outwards like a fault, so a handler may catch it, and a last part that returns,
raises or leaves a loop does so in place of whatever was under way.

Only the caller sees what leaves the body.  At this edge a stop signal becomes a fault of the body,
and a body that yields although it is being closed fails for the one who closes it, past all of its
own handlers.
-/

namespace Workflow

namespace Generator

/-! ## Statements -/

mutual

/-- A statement with expressions in `ε`. -/
inductive Stmt (ε : Type) where
  /-- Yields a value and binds what is sent back. -/
  | yield (name? : Option String) (value : ε)
  /-- Yields whatever an iterator yields, and binds what it returns. -/
  | yieldFrom (name? : Option String) (iterator : ε)
  | assign (name? : Option String) (value : ε)
  | ret (value : ε)
  | branch (test : ε) (whenTrue whenFalse : List (Stmt ε))
  /-- Runs the body once for every value that an iterator yields. -/
  | forEach (name : String) (iterator : ε) (body : List (Stmt ε))
  | whileLoop (test : ε) (body : List (Stmt ε))
  | leaveLoop
  | nextRound
  /-- Raises again what the innermost handler or last part around was entered with. -/
  | raiseAgain
  /-- Runs `body`, then `orElse` if the body has run off its end, or the first of the clauses that
  takes what the body has raised; runs `final` last in any case. -/
  | guarded (body : List (Stmt ε)) (clauses : List (Clause ε)) (orElse final : List (Stmt ε))

/-- A handler, for what is raised under one of the named classes. -/
inductive Clause (ε : Type) where
  | mk (kinds : List String) (name? : Option String) (body : List (Stmt ε))

end

/-- What passes outwards until it is handled: a fault, or the signal that the body is closed. -/
inductive Raised (κ : Type) where
  | fault (cause : Fault κ)
  | exit

namespace Raised

/-- The exit signal is none of the ordinary faults, and the class of all that is raised has it. -/
def isA {κ : Type} (kind : String) : Raised κ → Bool
  | .fault cause => cause.isA kind || kind == "BaseException"
  | .exit => ["GeneratorExit", "BaseException"].contains kind

end Raised

namespace Clause

variable {ε : Type}

def name? : Clause ε → Option String
  | .mk _ name? _ => name?

def body : Clause ε → List (Stmt ε)
  | .mk _ _ body => body

def takes {κ : Type} (raised : Raised κ) : Clause ε → Bool
  | .mk kinds _ _ => kinds.any raised.isA

end Clause

/-! ## Bodies -/

/-- How a block ends. -/
inductive Completion (κ : Type) where
  | done
  | leftLoop
  | endedRound
  | returned (value : Value κ)
  | raised (raised : Raised κ)

/-- What an inner block was entered for. -/
inductive Context (κ ε ι : Type) where
  | branch
  /-- One round of a loop; the iterator has the items that are left. -/
  | forEach (name : String) (iterator : ι) (body : List (Stmt ε))
  | whileLoop (test : ε) (body : List (Stmt ε))
  | guarded (clauses : List (Clause ε)) (orElse final : List (Stmt ε))
  | handling (name? : Option String) (raised : Raised κ) (final : List (Stmt ε))
  /-- The part of a guarded statement that follows a body which has run off its end. -/
  | orElse (final : List (Stmt ε))
  /-- The last part of a guarded statement, which is about to end as `before` says. -/
  | finishing (before : Completion κ)

/-- A block around another one: what the inner one is for and the statements that follow. -/
structure Frame (κ ε ι : Type) where
  context : Context κ ε ι
  rest : List (Stmt ε)

/-- A generator that has not ended: it has not begun, waits at a yield, or waits because the
iterator that it delegates to does. -/
inductive Body (κ ε ι : Type) where
  | fresh (scope : Scope κ) (statements : List (Stmt ε))
  | waiting (scope : Scope κ) (name? : Option String) (rest : List (Stmt ε))
      (frames : List (Frame κ ε ι))
  | delegating (iterator : ι) (scope : Scope κ) (name? : Option String) (rest : List (Stmt ε))
      (frames : List (Frame κ ε ι))

/-- The meaning of what statements are made of, `κ` being the code of function values, `β` the
state of the caller and `ι` the iterators that bodies go through. -/
structure Language (κ β ε ι : Type) where
  /-- Calls a function that is no generator function. -/
  callback : Dispatch κ β → κ → Scope κ → List (Value κ) → Action κ β (Value κ)
  /-- The scope in which a generator function begins on its arguments, and its statements. -/
  enter : κ → Scope κ → List (Value κ) → Except (Fault κ) (Scope κ × List (Stmt ε))
  eval : Dispatch κ β → Scope κ → ε → Action κ β (Value κ)
  /-- Whether a value passes a test. -/
  holds : Value κ → Bool
  /-- What the name of a handler stands for. -/
  report : Raised κ → Value κ
  /-- Makes an iterator of an expression and runs it to its first yield. -/
  iterate : Dispatch κ β → Scope κ → ε → Action κ β (Progress κ ι)
  send : Dispatch κ β → ι → Value κ → Action κ β (Progress κ ι)
  dispose : Dispatch κ β → ι → Action κ β Unit

/-! ## The machine -/

/-- What the machine does next: run statements, ask the iterator of a loop for an item, or hand a
completion to the frame around. -/
inductive Control (κ ε ι : Type) where
  | run (statements : List (Stmt ε))
  | fetch (name : String) (iterator : ι) (body rest : List (Stmt ε))
  | finish (completion : Completion κ)

/-- Where the machine stops: at a yield, or at the end of the body. -/
inductive Stop (κ ε ι : Type) where
  | yielded (value : Value κ) (body : Body κ ε ι)
  | ended (completion : Completion κ)

/-- One step of the machine: it stops, or it goes on. -/
inductive Turn (κ ε ι : Type) where
  | stop (stop : Stop κ ε ι)
  | goOn (scope : Scope κ) (control : Control κ ε ι) (frames : List (Frame κ ε ι))

/-- Binds a name, if there is one. -/
def bindName {κ : Type} (scope : Scope κ) (name? : Option String) (value : Value κ) : Scope κ :=
  name?.elim scope fun name => scope.set name value

/-- Ends the life of a name, if there is one. -/
def unbindName {κ : Type} (scope : Scope κ) (name? : Option String) : Scope κ :=
  name?.elim scope fun name => scope.filter fun binding => binding.1 != name

variable {κ β ε ι : Type}

def Turn.raise (scope : Scope κ) (frames : List (Frame κ ε ι)) (cause : Fault κ) : Turn κ ε ι :=
  .goOn scope (.finish (.raised (.fault cause))) frames

/-- What a loop does once its iterator has answered. -/
def Turn.ofItem (scope : Scope κ) (name : String) (body rest : List (Stmt ε))
    (frames : List (Frame κ ε ι)) : Except (Fault κ) (Progress κ ι) → Turn κ ε ι
  | .ok (.yielded item iterator) =>
      .goOn (scope.set name item) (.run body) (⟨.forEach name iterator body, rest⟩ :: frames)
  | .ok (.returned _) => .goOn scope (.run rest) frames
  | .error cause => .raise scope frames cause

/-- What a body that delegates does once its iterator has answered. -/
def Turn.ofIterator (scope : Scope κ) (name? : Option String) (rest : List (Stmt ε))
    (frames : List (Frame κ ε ι)) : Except (Fault κ) (Progress κ ι) → Turn κ ε ι
  | .ok (.yielded value iterator) =>
      .stop (.yielded value (.delegating iterator scope name? rest frames))
  | .ok (.returned value) => .goOn (bindName scope name? value) (.run rest) frames
  | .error cause => .raise scope frames cause

namespace Frame

/-- What the inner block was entered with, where it handles something raised. -/
def underWay? (frame : Frame κ ε ι) : Option (Raised κ) :=
  match frame.context with
  | .handling _ raised _ | .finishing (.raised raised) => some raised
  | _ => none

/-- Begins the last part of a guarded statement, which is about to end so. -/
def finishWith (frame : Frame κ ε ι) (scope : Scope κ) (frames : List (Frame κ ε ι))
    (before : Completion κ) (final : List (Stmt ε)) : Turn κ ε ι :=
  .goOn scope (.run final) (⟨.finishing before, frame.rest⟩ :: frames)

/-- What a frame does when the block inside it ends. -/
def turn (report : Raised κ → Value κ) (scope : Scope κ) (frame : Frame κ ε ι)
    (frames : List (Frame κ ε ι)) (completion : Completion κ) : Turn κ ε ι :=
  match frame.context, completion with
  | .branch, .done | .forEach _ _ _, .leftLoop | .whileLoop _ _, .leftLoop
  | .finishing .done, .done => .goOn scope (.run frame.rest) frames
  | .forEach name iterator body, .done | .forEach name iterator body, .endedRound =>
      .goOn scope (.fetch name iterator body frame.rest) frames
  | .whileLoop test body, .done | .whileLoop test body, .endedRound =>
      .goOn scope (.run (.whileLoop test body :: frame.rest)) frames
  | .guarded _ orElse final, .done =>
      .goOn scope (.run orElse) (⟨.orElse final, frame.rest⟩ :: frames)
  | .guarded clauses _ final, .raised raised =>
      match clauses.find? (Clause.takes raised) with
      | some clause =>
          .goOn (bindName scope clause.name? (report raised)) (.run clause.body)
            (⟨.handling clause.name? raised final, frame.rest⟩ :: frames)
      | none => frame.finishWith scope frames completion final
  | .guarded _ _ final, _ | .orElse final, _ => frame.finishWith scope frames completion final
  | .handling name? _ final, _ =>
      frame.finishWith (unbindName scope name?) frames completion final
  | .finishing before, .done => .goOn scope (.finish before) frames
  -- Anything but running off the end of the block goes on outwards.
  | _, _ => .goOn scope (.finish completion) frames

end Frame

namespace Stmt

/-- One statement, with the statements and frames around it. -/
def turn (language : Language κ β ε ι) (dispatch : Dispatch κ β) (scope : Scope κ)
    (rest : List (Stmt ε)) (frames : List (Frame κ ε ι)) : Stmt ε → Action κ β (Turn κ ε ι)
  | .yield name? e => do
      match ← (language.eval dispatch scope e).attempt with
      | .ok value => return .stop (.yielded value (.waiting scope name? rest frames))
      | .error cause => return .raise scope frames cause
  | .yieldFrom name? e => do
      let answer ← (language.iterate dispatch scope e).attempt
      return .ofIterator scope name? rest frames answer
  | .assign name? e => do
      match ← (language.eval dispatch scope e).attempt with
      | .ok value => return .goOn (bindName scope name? value) (.run rest) frames
      | .error cause => return .raise scope frames cause
  | .ret e => do
      match ← (language.eval dispatch scope e).attempt with
      | .ok value => return .goOn scope (.finish (.returned value)) frames
      | .error cause => return .raise scope frames cause
  | .branch test whenTrue whenFalse => do
      match ← (language.eval dispatch scope test).attempt with
      | .ok value =>
          return .goOn scope (.run (if language.holds value then whenTrue else whenFalse))
            (⟨.branch, rest⟩ :: frames)
      | .error cause => return .raise scope frames cause
  | .forEach name e body => do
      let answer ← (language.iterate dispatch scope e).attempt
      return .ofItem scope name body rest frames answer
  | .whileLoop test body => do
      match ← (language.eval dispatch scope test).attempt with
      | .ok value =>
          if language.holds value then
            return .goOn scope (.run body) (⟨.whileLoop test body, rest⟩ :: frames)
          else
            return .goOn scope (.run rest) frames
      | .error cause => return .raise scope frames cause
  | .leaveLoop => return .goOn scope (.finish .leftLoop) frames
  | .nextRound => return .goOn scope (.finish .endedRound) frames
  | .raiseAgain =>
      match frames.findSome? Frame.underWay? with
      | some raised => return .goOn scope (.finish (.raised raised)) frames
      | none => return .raise scope frames (.raised .runtime "No active exception to reraise")
  | .guarded body clauses orElse final =>
      return .goOn scope (.run body) (⟨.guarded clauses orElse final, rest⟩ :: frames)

end Stmt

def turn (language : Language κ β ε ι) (dispatch : Dispatch κ β) (scope : Scope κ) :
    Control κ ε ι → List (Frame κ ε ι) → Action κ β (Turn κ ε ι)
  | .run [], frames => return .goOn scope (.finish .done) frames
  | .run (statement :: rest), frames => statement.turn language dispatch scope rest frames
  | .fetch name iterator body rest, frames => do
      let answer ← (language.send dispatch iterator .null).attempt
      return .ofItem scope name body rest frames answer
  | .finish completion, [] => return .stop (.ended completion)
  | .finish completion, frame :: frames =>
      return frame.turn language.report scope frames completion

/-- Takes turn after turn until the machine stops. -/
def runFrom (language : Language κ β ε ι) (dispatch : Dispatch κ β) :
    Nat → Turn κ ε ι → Action κ β (Stop κ ε ι)
  | _, .stop stop => return stop
  | 0, .goOn _ _ _ => .unfinished
  | rounds + 1, .goOn scope control frames => do
      runFrom language dispatch rounds (← turn language dispatch scope control frames)

/-! ## At the edge of a body -/

/-- The value that a body returns which ends so.  A fault leaves it, a stop signal as the fault that
it is there; an exit signal has done what it was raised for. -/
def Completion.result : Completion κ → Action κ β (Value κ)
  | .returned value => return value
  | .raised (.fault cause) => .fail (cause.crossing .generator)
  | .raised .exit | .done | .leftLoop | .endedRound => return .null

namespace Stop

/-- What a body has come to for the one who sends to it. -/
def progress : Stop κ ε ι → Action κ β (Progress κ (Body κ ε ι))
  | .yielded value body => return .yielded value body
  | .ended completion => do return .returned (← completion.result)

/-- The same for the one who closes it. -/
def closing : Stop κ ε ι → Action κ β Unit
  | .yielded _ _ => .fail .ignoredExit
  | .ended completion => do
      let _ ← completion.result (β := β)
      return ()

end Stop

namespace Body

/-- How a body goes on when a value is sent to it. -/
def receive (language : Language κ β ε ι) (dispatch : Dispatch κ β) (sent : Value κ) :
    Body κ ε ι → Action κ β (Turn κ ε ι)
  | .fresh scope statements => return .goOn scope (.run statements) []
  | .waiting scope name? rest frames =>
      return .goOn (bindName scope name? sent) (.run rest) frames
  | .delegating iterator scope name? rest frames => do
      let answer ← (language.send dispatch iterator sent).attempt
      return .ofIterator scope name? rest frames answer

/-- How a body goes on when it is closed.  One that has not begun has ended with that; one that
delegates closes its iterator first, and a fault of this is raised instead of the signal. -/
def leave (language : Language κ β ε ι) (dispatch : Dispatch κ β) :
    Body κ ε ι → Action κ β (Turn κ ε ι)
  | .fresh _ _ => return .stop (.ended .done)
  | .waiting scope _ _ frames => return .goOn scope (.finish (.raised .exit)) frames
  | .delegating iterator scope _ _ frames => do
      match ← (language.dispose dispatch iterator).attempt with
      | .ok () => return .goOn scope (.finish (.raised .exit)) frames
      | .error cause => return .raise scope frames cause

/-- Sends a value to a body and runs it to its next yield or its end. -/
def advance (language : Language κ β ε ι) (dispatch : Dispatch κ β) (body : Body κ ε ι)
    (sent : Value κ) : Action κ β (Progress κ (Body κ ε ι)) := do
  let first ← body.receive language dispatch sent
  let stop ← runFrom language dispatch dispatch.rounds first
  stop.progress

/-- Closes a body where it waits and runs it to its end. -/
def close (language : Language κ β ε ι) (dispatch : Dispatch κ β) (body : Body κ ε ι) :
    Action κ β Unit := do
  let first ← body.leave language dispatch
  let stop ← runFrom language dispatch dispatch.rounds first
  stop.closing

end Body

/-- The host of a language whose routines are generator functions. -/
def host (language : Language κ β ε ι) : Host κ β (Body κ ε ι) where
  callback := language.callback
  start code captured arguments := do
    let (scope, statements) ← language.enter code captured arguments
    return .fresh scope statements
  advance := Body.advance language
  close := Body.close language

end Generator

end Workflow
