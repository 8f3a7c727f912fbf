import Workflow.Session
import Workflow.Script.Reader

/-!
# Reading sessions

A session is written as a JSON document: the definitions of functions, the store it begins with,
and its steps.
-/

namespace Workflow

open Workflow.Script

def Json.value? (key : String) (document : Json) : Option (Value Code) :=
  (document.member? key).map Value.ofWritten

namespace Memory

/-- Stores the documents that pairs of an identifier and a document write. -/
def putAll (memory : Memory Code) (pairs : List Json) : Memory Code :=
  pairs.foldl (fun memory entry =>
    match entry with
    | .array [id, doc] => memory.put (Value.ofWritten id) (Value.ofWritten doc)
    | _ => memory) memory

/-- The failure that a document asks for. -/
def failureOfJson? (document : Json) : Option (Nat × Fault Code) := do
  let number ← (← document.member? "at").nat?
  let kind ← FaultClass.named? (← (← document.member? "error").text?)
  let message ← (← document.member? "message").text?
  return (number, .ofName kind message)

def ofJson (document : Json) : Memory Code :=
  let empty : Memory Code :=
    { echo := ((document.member? "echo").map Json.isTrue).getD false
      chosenIds := (((document.member? "ids").bind Json.items?).getD []).map Value.ofWritten
      listing? := (document.member? "get_all").bind (Json.value? "value")
      updateAnswer := (document.value? "update_returns").getD .null
      failure? := (document.member? "fail").bind failureOfJson? }
  empty.putAll (((document.member? "docs").bind Json.items?).getD [])

end Memory

namespace Driver

/-- The driver that a word names, and whether it is to drive a query. -/
def named? (word : String) : Option (Driver × Bool) :=
  match all.find? fun driver => driver.word == word with
  | some driver => some (driver, false)
  | none =>
      (all.find? fun driver => "query_" ++ driver.word == word).map fun driver => (driver, true)

end Driver

namespace Task

def expr? (document : Json) (key : String) : Option Expr := do
  Expr.ofJson? (← document.member? key)

def ofJson? (document : Json) : Option Task := do
  match ← (← document.member? "op").text? with
  | "eval" => return .eval (← expr? document "expr")
  | "run" =>
      let (driver, onQuery) ← Driver.named? (← (← document.member? "driver").text?)
      let program ← expr? document "program"
      match document.member? "executor" with
      | some executor => return .drive driver onQuery program (some (← Expr.ofJson? executor))
      | none => return .drive driver onQuery program none
  | "resolve" => return .resolve (← expr? document "expr")
  | "resolve_async" => return .resolveAsync (← expr? document "expr")
  | "store" => return .store (Memory.ofJson ((document.member? "store").getD (.object [])))
  | "env" => return .environment ((document.member? "value").bind Json.text?)
  | "enabled" => return .enabled
  | "configure" => return .configure
  | _ => none

end Task

namespace Step

def ofJson? (document : Json) : Option Step := do
  return {
    task := ← Task.ofJson? document
    name? := (document.member? "name").bind Json.text?
    brief := ((document.member? "brief").map Json.isTrue).getD false }

end Step

namespace Session

def definitionsOfJson? : Json → Option (List (String × Expr))
  | .object members => members.mapM fun entry => do return (entry.1, ← Expr.ofJson? entry.2)
  | _ => none

/-- The session that a document writes, and its steps. -/
def ofJson? (document : Json) : Option (Session × List Step) := do
  let definitions ← definitionsOfJson? ((document.member? "defs").getD (.object []))
  let memory := Memory.ofJson ((document.member? "store").getD (.object []))
  let steps ← (← (← document.member? "steps").items?).mapM Step.ofJson?
  return (start definitions memory, steps)

end Session

end Workflow
