import Workflow.Operation

/-!
# Values

The dynamic values that programs compute with: plain data, function values, operations,
programs and queries.  A program is a value, `terminal v` when it has finished with `v` and
`pending op` when it waits on `op`.  Nothing forces `op` to be an operation or a continuation
to be a function, since both are only found out when they are used.

Function values are first-order: a `Callable` names a rule and lists the values it has
captured.  `κ` is the type of the code that callers bring along; the library never looks into it.
-/

namespace Workflow

mutual

/-- A dynamic value. -/
inductive Value (κ : Type) where
  | null
  | bool (b : Bool)
  | int (n : Int)
  /-- A floating-point number, kept as the text it is written with. -/
  | float (digits : String)
  | text (s : String)
  | bytes (content : List UInt8)
  | list (items : List (Value κ))
  | tuple (items : List (Value κ))
  /-- A dictionary, its members in insertion order. -/
  | dict (members : List (String × Value κ))
  | fn (f : Callable κ)
  /-- A program that has finished with this value. -/
  | terminal (value : Value κ)
  /-- A program that waits on this operation. -/
  | pending (operation : Value κ)
  /-- A wrapped program with the fluent interface. -/
  | query (program : Value κ)
  | operation (op : Operation (Value κ))

/-- A function value: the rule that it follows and the values that it has captured. -/
inductive Callable (κ : Type) where
  /-- A function of the caller, closed over the named values. -/
  | callback (code : κ) (captured : List (String × Value κ))
  /-- Calling it with arguments builds the program of a routine body. -/
  | routine (code : κ) (captured : List (String × Value κ))
  /-- What a routine does with the outcome of a waiting step: start the body afresh, send it
  the values received so far, then the outcome. -/
  | resumeRest (code : κ) (captured : List (String × Value κ))
      (arguments received : List (Value κ))
  /-- Resolves an operation against the backend and calls its continuation. -/
  | executor (backend : Backend (Value κ))
  /-- The same over a backend whose four functions are awaited. -/
  | asyncExecutor (backend : Backend (Value κ))
  /-- The program that has finished with the argument. -/
  | finish
  /-- Unwraps a query; a program stays as it is. -/
  | asProgram
  /-- Answers every argument with this value. -/
  | always (value : Value κ)
  /-- Builds with a helper that does not take the operands it was given: every call fails. -/
  | misfit
  /-- The pair of `first` and the argument. -/
  | pairWith (first : Value κ)
  /-- Calls `inner`, then `outer` on the result. -/
  | compose (outer inner : Value κ)
  /-- Maps `f` over the result of the program it is given. -/
  | mapRest (f : Value κ)
  /-- Continues with `f` after the program it is given. -/
  | thenRest (f : Value κ)
  /-- Evaluates the program it is given with this executor. -/
  | evalRest (executor : Value κ)
  /-- Runs `second` and pairs its result with the argument. -/
  | pairRest (second : Value κ)
  /-- Goes on with the programs that remain, the argument being the newest result; `results`
  holds the earlier ones, latest first. -/
  | sequenceRest (remaining results : List (Value κ))

end

abbrev Scope (κ : Type) := List (String × Value κ)

namespace Value

variable {κ : Type}

/-- The name of a value's type, as error messages give it. -/
def kind : Value κ → String
  | .null => "NoneType"
  | .bool _ => "bool"
  | .int _ => "int"
  | .float _ => "float"
  | .text _ => "str"
  | .bytes _ => "bytes"
  | .list _ => "list"
  | .tuple _ => "tuple"
  | .dict _ => "dict"
  | .fn _ => "fn"
  | .terminal _ => "Terminal"
  | .pending _ => "Pending"
  | .query _ => "Query"
  | .operation op => op.request.kind.name

/-- Whether the value is a program, finished or waiting. -/
def isProgram : Value κ → Bool
  | .terminal _ | .pending _ => true
  | _ => false

/-- What a value lists when it is iterated: items, characters, keys or bytes. -/
def items? : Value κ → Option (List (Value κ))
  | .list items | .tuple items => some items
  | .text s => some (s.toList.map fun c => .text c.toString)
  | .dict members => some (members.map fun member => .text member.1)
  | .bytes content => some (content.map fun b => .int b.toNat)
  | _ => none

end Value

namespace Scope

variable {κ : Type}

def get? (scope : Scope κ) (name : String) : Option (Value κ) :=
  (scope.find? fun binding => binding.1 == name).map (·.2)

/-- Gives a name a value; an existing binding keeps its place. -/
def set : Scope κ → String → Value κ → Scope κ
  | [], name, value => [(name, value)]
  | binding :: rest, name, value =>
      if binding.1 == name then (name, value) :: rest else binding :: set rest name value

end Scope

end Workflow
