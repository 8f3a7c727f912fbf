import Workflow.Value
import Workflow.Text.Quoted

/-!
# The displayed form of values

The text of a value in error messages and log lines.  A function value shows no more than that
it is one, and an operation shows its request but not its continuation; two values that differ
only inside continuations are therefore displayed alike.
-/

namespace Workflow.Value

open Workflow.Text

variable {κ : Type}

/-- Items between brackets, parted by a comma and a space. -/
def bracketed (opening closing : String) (items : List String) : String :=
  opening ++ String.intercalate ", " items ++ closing

mutual

/-- The displayed form of a value. -/
def display : Value κ → String
  | .null => "None"
  | .bool true => "True"
  | .bool false => "False"
  | .int n => toString n
  | .float digits => digits
  | .text s => Quoted.ofText s
  | .bytes content => Quoted.ofBytes content
  | .list items => bracketed "[" "]" (displays items)
  | .tuple [item] => "(" ++ display item ++ ",)"
  | .tuple items => bracketed "(" ")" (displays items)
  | .dict members => bracketed "\x7b" "\x7d" (displayMembers members)
  | .fn _ => "<fn>"
  | .terminal value => "Terminal(value=" ++ display value ++ ")"
  | .pending op => "Pending(operation=" ++ display op ++ ")"
  | .query program => "Query(" ++ display program ++ ")"
  | .operation ⟨.getById id, _⟩ => "GetById(id=" ++ display id ++ ")"
  | .operation ⟨.getAll, _⟩ => "GetAll()"
  | .operation ⟨.update id doc, _⟩ =>
      "Update(id=" ++ display id ++ ", doc=" ++ display doc ++ ")"
  | .operation ⟨.create doc, _⟩ => "Create(doc=" ++ display doc ++ ")"

/-- The displayed forms of values, in order. -/
def displays : List (Value κ) → List String
  | [] => []
  | value :: rest => display value :: displays rest

/-- The displayed forms of a dictionary's members, in order. -/
def displayMembers : List (String × Value κ) → List String
  | [] => []
  | (key, value) :: rest => (Quoted.ofText key ++ ": " ++ display value) :: displayMembers rest

end

end Workflow.Value
