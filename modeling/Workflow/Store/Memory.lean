import Workflow.Fault
import Workflow.Value.Written

/-!
# A store in memory

Documents under identifiers, in the order of their first insertion.  Two identifiers are the same
when their written forms say the same.  A store can be told to answer in unusual ways, which is
what a test of programs needs: to give identifiers back as documents, to choose the identifiers
of new documents, to list something of its own, to answer updates, and to fail at one call.
-/

namespace Workflow

structure Entry (κ : Type) where
  id : Value κ
  doc : Value κ
  /-- What the identifier is compared by. -/
  identity : String
  identity_eq : identity = id.identity

/-- A store and how it answers. -/
structure Memory (κ : Type) where
  entries : List (Entry κ) := []
  /-- Whether fetching answers with the identifier itself. -/
  echo : Bool := false
  /-- The identifiers of the first documents that are created. -/
  chosenIds : List (Value κ) := []
  /-- What fetching all documents answers, if not their list. -/
  listing? : Option (Value κ) := none
  updateAnswer : Value κ := .null
  /-- The number of the call that fails, counted from one, and the fault it fails with. -/
  failure? : Option (Nat × Fault κ) := none
  calls : Nat := 0
  created : Nat := 0

namespace Memory

variable {κ : Type}

/-- Replaces the document under an identifier in place, or adds it at the end. -/
def putEntry (entry : Entry κ) : List (Entry κ) → List (Entry κ)
  | [] => [entry]
  | old :: rest =>
      if old.identity == entry.identity then entry :: rest else old :: putEntry entry rest

def put (memory : Memory κ) (id doc : Value κ) : Memory κ :=
  { memory with entries := putEntry ⟨id, doc, id.identity, rfl⟩ memory.entries }

def find? (memory : Memory κ) (id : Value κ) : Option (Value κ) :=
  let identity := id.identity
  (memory.entries.find? fun entry => entry.identity == identity).map (·.doc)

def docs (memory : Memory κ) : List (Value κ × Value κ) :=
  memory.entries.map fun entry => (entry.id, entry.doc)

/-- The identifier of the next document that is created. -/
def nextId (memory : Memory κ) : Value κ :=
  match memory.chosenIds[memory.created]? with
  | some id => id
  | none => .text ("doc-" ++ toString (memory.created + 1))

/-- What a store that does not fail answers, and what it has become. -/
def perform (memory : Memory κ) : Request (Value κ) → Except (Fault κ) (Value κ) × Memory κ
  | .getById id =>
      if memory.echo then (.ok id, memory)
      else
        match memory.find? id with
        | some doc => (.ok doc, memory)
        | none => (.error (.missingKey id), memory)
  | .getAll =>
      (.ok (memory.listing?.getD (.list (memory.entries.map (·.doc)))), memory)
  | .update id doc => (.ok memory.updateAnswer, memory.put id doc)
  | .create doc =>
      let id := memory.nextId
      (.ok id, { memory.put id doc with created := memory.created + 1 })

/-- Answers a call: counts it, then fails if it is the one that fails, else performs it. -/
def answer (memory : Memory κ) (request : Request (Value κ)) :
    Except (Fault κ) (Value κ) × Memory κ :=
  let counted := { memory with calls := memory.calls + 1 }
  match counted.failure? with
  | some (number, cause) =>
      if number = counted.calls then (.error cause, counted) else counted.perform request
  | none => counted.perform request

end Memory

end Workflow
