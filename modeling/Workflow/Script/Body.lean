import Workflow.Script.Eval
import Workflow.Call

/-!
# Routine bodies of scripts

The statements of the script language and how a body written in it is run.  In this language every
block of statements is a generator of its own, and a statement that contains a block delegates to
it.  Three rules follow that a single generator function does not have (`Workflow.Generator`): a
return in the last part of a guarded statement ends this part only, a stop signal is a fault of the
block already for the statement around it, and a block that yields although it is being closed
fails for the statement around it.

A body runs as a stack of blocks.  The innermost block holds the statements that are left in it;
each block around it is a `Frame`, which says what the inner block was entered for and what is
left after it.  When a block ends, its `Completion` is handed to the frame around it.

A body is closed block by block, the innermost first.  A block that yields although it is being
closed is given up: the block around it goes on with that fault, and the block that was given up
is closed once more, whatever this brings; if it yields even then, it is left where it waits.  All
blocks of a body share one scope.
-/

namespace Workflow.Script

/-- How a block ends. -/
inductive Completion where
  | done
  | returned (value : Value Code)
  | failed (cause : Fault Code)
  | closed

/-- What an inner block was entered for. -/
inductive Context where
  | branch
  /-- One round of a loop, with the items that are left. -/
  | loop (name : String) (items : List (Value Code)) (body : List Stmt)
  | guarded (kind name : String) (handler final : List Stmt)
  | handling (final : List Stmt)
  /-- The last part of a guarded statement, which then ends as it was about to. -/
  | finishing (before : Completion)

/-- A block around another one: what the inner one is for and the statements that follow. -/
structure Frame where
  context : Context
  rest : List Stmt

/-- A body that has not begun or waits at a yield. -/
structure Body where
  scope : Scope Code
  /-- The name to which the value sent is bound; a body that has not begun has none. -/
  awaiting : Option String
  rest : List Stmt
  /-- The blocks around it, innermost first. -/
  frames : List Frame

/-- What the machine does next: run statements, or hand a completion to the frame around. -/
inductive Control where
  | run (statements : List Stmt)
  | finish (completion : Completion)

/-- Where the machine stops: at a yield, or at the end of its outermost block. -/
inductive Stop where
  | yielded (value : Value Code) (body : Body)
  | ended (completion : Completion) (scope : Scope Code)

/-- One step of the machine: it stops, or it goes on. -/
inductive Turn where
  | stop (stop : Stop)
  | goOn (scope : Scope Code) (control : Control) (frames : List Frame)

namespace Turn

def fail (scope : Scope Code) (frames : List Frame) (cause : Fault Code) : Turn :=
  .goOn scope (.finish (.failed cause)) frames

end Turn

namespace Stmt

/-- One statement, with the statements and frames around it.  `value?` is the value of an
expression, or the fault it fails with. -/
def turn (value? : Expr → Act (Except (Fault Code) (Value Code))) (scope : Scope Code)
    (rest : List Stmt) (frames : List Frame) : Stmt → Act Turn
  | .yield name e => do
      match ← value? e with
      | .ok value => return .stop (.yielded value ⟨scope, some name, rest, frames⟩)
      | .error cause => return .fail scope frames cause
  | .assign name e => do
      match ← value? e with
      | .ok value => return .goOn (scope.set name value) (.run rest) frames
      | .error cause => return .fail scope frames cause
  | .ret e => do
      match ← value? e with
      | .ok value => return .goOn scope (.finish (.returned value)) frames
      | .error cause => return .fail scope frames cause
  | .branch test whenTrue whenFalse => do
      match ← value? test with
      | .ok (.bool true) => return .goOn scope (.run whenTrue) (⟨.branch, rest⟩ :: frames)
      | .ok (.bool false) => return .goOn scope (.run whenFalse) (⟨.branch, rest⟩ :: frames)
      | .ok _ => return .fail scope frames (.badOperand "if")
      | .error cause => return .fail scope frames cause
  | .loop name e body => do
      match ← value? e with
      | .ok (.list items) =>
          return .goOn scope (.finish .done) (⟨.loop name items body, rest⟩ :: frames)
      | .ok _ => return .fail scope frames (.badOperand "for")
      | .error cause => return .fail scope frames cause
  | .guarded body kind name handler final =>
      return .goOn scope (.run body) (⟨.guarded kind name handler final, rest⟩ :: frames)

end Stmt

namespace Frame

/-- What a frame does when the block inside it ends. -/
def turn (scope : Scope Code) (frame : Frame) (frames : List Frame) (completion : Completion) :
    Turn :=
  match frame.context, completion with
  | .branch, .done => .goOn scope (.run frame.rest) frames
  | .loop _ [] _, .done => .goOn scope (.run frame.rest) frames
  | .loop name (item :: items) body, .done =>
      .goOn (scope.set name item) (.run body) (⟨.loop name items body, frame.rest⟩ :: frames)
  | .guarded kind name handler final, .failed cause =>
      if cause.isA kind then
        .goOn (scope.set name (.dict (report cause))) (.run handler)
          (⟨.handling final, frame.rest⟩ :: frames)
      else
        .goOn scope (.run final) (⟨.finishing completion, frame.rest⟩ :: frames)
  | .guarded _ _ _ final, _ | .handling final, _ =>
      .goOn scope (.run final) (⟨.finishing completion, frame.rest⟩ :: frames)
  | .finishing .done, .done | .finishing .done, .returned _ =>
      .goOn scope (.run frame.rest) frames
  | .finishing before, .done | .finishing before, .returned _ =>
      .goOn scope (.finish before) frames
  | _, _ => .goOn scope (.finish completion) frames

end Frame

/-- The value of an expression in a block, or the fault it fails with.  A stop signal does not leave
the block. -/
def valueIn (globals : Scope Code) (dispatch : Dispatch Code Stores) (scope : Scope Code)
    (e : Expr) : Act (Except (Fault Code) (Value Code)) :=
  ((e.eval globals dispatch scope).within .generator).attempt

def turn (globals : Scope Code) (dispatch : Dispatch Code Stores) (scope : Scope Code) :
    Control → List Frame → Act Turn
  | .run [], frames => return .goOn scope (.finish .done) frames
  | .run (statement :: rest), frames =>
      statement.turn (valueIn globals dispatch scope) scope rest frames
  | .finish completion, [] => return .stop (.ended completion scope)
  | .finish completion, frame :: frames => return frame.turn scope frames completion

def runBlocks (globals : Scope Code) (dispatch : Dispatch Code Stores) :
    Nat → Scope Code → Control → List Frame → Act Stop
  | 0, _, _, _ => .unfinished
  | rounds + 1, scope, control, frames => do
      match ← turn globals dispatch scope control frames with
      | .stop stop => return stop
      | .goOn scope control frames => runBlocks globals dispatch rounds scope control frames

/-- Closes blocks from the innermost on.  `completion` is how the block inside the first frame
has ended; the answer is how the outermost block ends.  `again` says that the outermost block was
given up and is closed for the second time. -/
def closeBlocks (globals : Scope Code) (dispatch : Dispatch Code Stores) (again : Bool) :
    Nat → Scope Code → Completion → List Frame → Act (Completion × Scope Code)
  | 0, _, _, _ => .unfinished
  | _ + 1, scope, completion, [] => return (completion, scope)
  | rounds + 1, scope, completion, frame :: frames => do
      match ← runBlocks globals dispatch dispatch.rounds scope (.finish completion) [frame] with
      | .ended (.failed cause) scope =>
          closeBlocks globals dispatch again rounds scope (.failed cause) frames
      | .ended _ scope => closeBlocks globals dispatch again rounds scope .closed frames
      | .yielded _ body =>
          if again && frames.isEmpty then
            return (.failed .ignoredExit, body.scope)
          else
            let (_, scope) ← closeBlocks globals dispatch true rounds body.scope .closed body.frames
            closeBlocks globals dispatch again rounds scope (.failed .ignoredExit) frames

namespace Body

def ofCode (code : Code) (captured : Scope Code) (arguments : List (Value Code)) :
    Except (Fault Code) Body :=
  match code with
  | .routine parameters body => do
      return ⟨← bindParameters captured parameters arguments, none, body, []⟩
  | .function _ _ | .store _ _ => .error (.badOperand "do")

/-- The scope of a body once a value is sent to it. -/
def scopeWith (body : Body) (sent : Value Code) : Scope Code :=
  match body.awaiting with
  | some name => body.scope.set name sent
  | none => body.scope

/-- Sends a value to a body and runs it to its next yield or its end. -/
def advance (globals : Scope Code) (dispatch : Dispatch Code Stores) (body : Body)
    (sent : Value Code) : Act (Progress Code Body) := do
  match ← runBlocks globals dispatch dispatch.rounds (body.scopeWith sent) (.run body.rest)
      body.frames with
  | .yielded value body => return .yielded value body
  | .ended (.returned value) _ => return .returned value
  | .ended (.failed cause) _ => .fail cause
  | .ended .done _ | .ended .closed _ => return .returned .null

def close (globals : Scope Code) (dispatch : Dispatch Code Stores) (body : Body) :
    Act Unit := do
  match ← closeBlocks globals dispatch false dispatch.rounds body.scope .closed body.frames with
  | (.failed cause, _) => .fail cause
  | _ => return ()

end Body

/-! ## Scripts as a host -/

/-- Calls a function of a script. -/
def callCode (globals : Scope Code) (dispatch : Dispatch Code Stores) (code : Code)
    (captured : Scope Code) (arguments : List (Value Code)) : Act (Value Code) :=
  match code with
  | .function parameters body => do
      let scope ← bindParameters captured parameters arguments
      body.eval globals dispatch scope
  | .store number kind =>
      match kind.request? arguments with
      | some (request, []) => askStore number request
      | _ => .fail .wrongArity
  | .routine _ _ => .fail (.badOperand "call")

/-- The host that scripts are for the library. -/
def host (globals : Scope Code) : Host Code Stores Body where
  callback := callCode globals
  start code captured arguments := do return ← Body.ofCode code captured arguments
  advance := Body.advance globals
  close := Body.close globals

end Workflow.Script
