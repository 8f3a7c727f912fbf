import Workflow.Store.Memory

/-!
# The script language

A small language in which callbacks, routine bodies and the programs built from them are written.
Expressions are evaluated for a value; statements make up the bodies of routines.  A strict form,
one that evaluates all its operands from left to right before it acts, is a `Primitive`; the
other forms bind, branch, mark or handle faults and are constructors of `Expr`.
-/

namespace Workflow.Script

/-- What starts a query, or follows one and replaces its result. -/
inductive Verb where
  | request (kind : RequestKind)
  | finished
  deriving DecidableEq

inductive Method where
  | verb (verb : Verb)
  | map
  | zip
  | zipProgram
  | andThen
  | andThenProgram
  | sequence
  deriving DecidableEq

inductive Primitive where
  | list
  | tuple
  | add
  | sub
  | mul
  | lt
  | eq
  | cat
  | len
  | get
  | put
  | range
  | display
  | kind
  | call
  | operationOf (kind : RequestKind)
  | mapOperation
  | next
  | operation
  | id
  | doc
  | terminal
  | pending
  | programOf (kind : RequestKind)
  | programThen (kind : RequestKind)
  | mapProgram
  | andThen
  | pair
  | sequence
  | traverse
  | isProgram
  | ensureProgram
  | query
  | start (verb : Verb)
  | method (method : Method)
  | querySequence
  | queryProgram
  | asProgram
  | resolve
  | executor
  | runStepped
  | evaluate
  | routineOf
  deriving DecidableEq

mutual

inductive Expr where
  /-- Plain data, in its written form. -/
  | lit (data : Json)
  | var (name : String)
  | bind (name : String) (value body : Expr)
  /-- A function, closed over the scope where it stands. -/
  | function (parameters : List String) (body : Expr)
  /-- A routine, closed over the scope where it stands. -/
  | routine (parameters : List String) (body : List Stmt)
  | branch (test whenTrue whenFalse : Expr)
  | trace (label : String) (value : Expr)
  | raise (kind : FaultClass) (message : String)
  /-- Calls the handler's value with a report of a fault of the named class. -/
  | guarded (body : Expr) (kind : String) (handler : Expr)
  | dict (members : List (String × Expr))
  | strict (primitive : Primitive) (operands : List Expr)

inductive Stmt where
  /-- Yields a value and binds what is sent back. -/
  | yield (name : String) (value : Expr)
  | assign (name : String) (value : Expr)
  | ret (value : Expr)
  | branch (test : Expr) (whenTrue whenFalse : List Stmt)
  | loop (name : String) (items : Expr) (body : List Stmt)
  /-- Runs the handler, with the fault's report bound to `name`, if the body fails with a fault
  of the named class; runs `final` last in any case. -/
  | guarded (body : List Stmt) (kind name : String) (handler final : List Stmt)

end

/-- The code that function values of a script carry. -/
inductive Code where
  | function (parameters : List String) (body : Expr)
  | routine (parameters : List String) (body : List Stmt)
  /-- The function of the store with this number that answers a request. -/
  | store (number : Nat) (kind : RequestKind)

end Workflow.Script
