import Workflow.Script.Primitive

/-!
# Evaluating expressions

The value of an expression in a scope.  Calls of function values go through the dispatch, so the
evaluation itself is a recursion on the expression.
-/

namespace Workflow.Script

/-- What a handler is told about a fault. -/
def report (cause : Fault Code) : Scope Code :=
  [("error", .text cause.kind.name), ("message", .text cause.message)]

/-- What a handler in an expression is told: also the value that was refused, if there is one. -/
def fullReport (cause : Fault Code) : Scope Code :=
  match cause.offender? with
  | some value => report cause ++ [("value", value)]
  | none => report cause

/-- The value that a name stands for: in the scope, else among the globals. -/
def lookup (globals scope : Scope Code) (name : String) : Except (Fault Code) (Value Code) :=
  match scope.get? name with
  | some value => .ok value
  | none =>
      match globals.get? name with
      | some value => .ok value
      | none => .error (.unbound name)

/-- A scope in which parameters stand for arguments. -/
def bindParameters (captured : Scope Code) (parameters : List String)
    (arguments : List (Value Code)) : Except (Fault Code) (Scope Code) :=
  if parameters.length = arguments.length then
    .ok ((parameters.zip arguments).foldl (fun scope entry => scope.set entry.1 entry.2) captured)
  else
    .error .wrongArity

mutual

def Expr.eval (globals : Scope Code) (dispatch : Dispatch Code Stores) (scope : Scope Code) :
    Expr → Act (Value Code)
  | .lit data => pure (Value.ofWritten data)
  | .var name => do return ← lookup globals scope name
  | .bind name value body => do
      let bound ← value.eval globals dispatch scope
      body.eval globals dispatch (scope.set name bound)
  | .function parameters body => pure (.fn (.callback (.function parameters body) scope))
  | .routine parameters body => pure (.fn (.routine (.routine parameters body) scope))
  | .branch test whenTrue whenFalse => do
      match ← test.eval globals dispatch scope with
      | .bool true => whenTrue.eval globals dispatch scope
      | .bool false => whenFalse.eval globals dispatch scope
      | _ => .fail (.badOperand "if")
  | .trace label value => do
      let marked ← value.eval globals dispatch scope
      .record (.trace label marked)
      return marked
  | .raise kind message => .fail (.ofName kind message)
  | .guarded body kind handler => do
      match ← (body.eval globals dispatch scope).attempt with
      | .ok value => return value
      | .error cause =>
          if cause.isA kind then
            let f ← handler.eval globals dispatch scope
            dispatch.apply f [.dict (fullReport cause)]
          else
            .fail cause
  | .dict members => do return .dict (← Expr.evalMembers globals dispatch scope members [])
  | .strict primitive operands => do
      primitive.run dispatch (← Expr.evalAll globals dispatch scope operands)

/-- The values of expressions, from left to right. -/
def Expr.evalAll (globals : Scope Code) (dispatch : Dispatch Code Stores)
    (scope : Scope Code) : List Expr → Act (List (Value Code))
  | [] => return []
  | operand :: rest => do
      let value ← operand.eval globals dispatch scope
      let values ← Expr.evalAll globals dispatch scope rest
      return value :: values

/-- The members of a dictionary, from left to right, added to those found so far. -/
def Expr.evalMembers (globals : Scope Code) (dispatch : Dispatch Code Stores)
    (scope : Scope Code) : List (String × Expr) → Scope Code → Act (Scope Code)
  | [], found => return found
  | (key, member) :: rest, found => do
      let value ← member.eval globals dispatch scope
      Expr.evalMembers globals dispatch scope rest (found.set key value)

end

end Workflow.Script
