import Workflow.Script.Expr
import Workflow.World

/-!
# The stores of a session

A session may replace its store, but executors made earlier keep the store they were made for.
The stores are therefore numbered, and the present one is the latest.
-/

namespace Workflow.Script

/-- The stores so far, in order; function values name a store by its place. -/
structure Stores where
  memories : List (Memory Code) := []

namespace Stores

def add (stores : Stores) (memory : Memory Code) : Stores :=
  ⟨stores.memories ++ [memory]⟩

def present (stores : Stores) : Nat :=
  stores.memories.length - 1

def docs (stores : Stores) : List (Value Code × Value Code) :=
  match stores.memories.getLast? with
  | some memory => memory.docs
  | none => []

def backend (number : Nat) : Backend (Value Code) where
  getById := .fn (.callback (.store number .getById) [])
  getAll := .fn (.callback (.store number .getAll) [])
  update := .fn (.callback (.store number .update) [])
  create := .fn (.callback (.store number .create) [])

end Stores

abbrev Act := Action Code Stores

def presentBackend : Act (Backend (Value Code)) := do
  return Stores.backend (← Action.outside).present

def askStore (number : Nat) (request : Request (Value Code)) : Act (Value Code) := do
  let stores ← Action.outside
  match stores.memories[number]? with
  | none => .fail (.badOperand "store")
  | some memory => do
      let (answer, memory) := memory.answer request
      .modifyOutside fun stores => ⟨stores.memories.set number memory⟩
      answer

end Workflow.Script
