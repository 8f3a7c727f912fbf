import Workflow.Program

/-!
# Resolving operations against a backend

`resolve` asks a backend what an operation requests and gives the bare outcome.  All documents
come back as a list however the backend lists them, and the answer to an update is dropped.  The
executors call the operation's continuation on the outcome; they read the continuation before
they resolve, so a value that is no operation fails in them for the want of that member.
-/

namespace Workflow

variable {κ β : Type}

/-- Runs a call to its end inside a coroutine. -/
@[inline] def await {α : Type} (action : Action κ β α) : Action κ β α :=
  action.within .coroutine

namespace Backend

/-! ## Bare outcomes -/

/-- Asks the backend and gives the bare outcome. -/
def resolve (dispatch : Dispatch κ β) (backend : Backend (Value κ)) :
    Value κ → Action κ β (Value κ)
  | .operation ⟨request, _⟩ => do
      .record (.call request)
      match request with
      | .getById id => dispatch.apply backend.getById [id]
      | .getAll => do
          let documents ← dispatch.apply backend.getAll []
          return .list (← itemsOf documents)
      | .update id doc => do
          let _ ← dispatch.apply backend.update [id, doc]
          return .null
      | .create doc => dispatch.apply backend.create [doc]
  | value => .fail (.unknownOperation value)

/-- Asks a backend whose four functions are awaited and gives the bare outcome. -/
def resolveAsync (dispatch : Dispatch κ β) (backend : Backend (Value κ)) :
    Value κ → Action κ β (Value κ)
  | .operation ⟨request, _⟩ => do
      .record (.call request)
      match request with
      | .getById id => await (dispatch.apply backend.getById [id])
      | .getAll => do
          let documents ← await (dispatch.apply backend.getAll [])
          return .list (← itemsOf documents)
      | .update id doc => do
          let _ ← await (dispatch.apply backend.update [id, doc])
          return .null
      | .create doc => await (dispatch.apply backend.create [doc])
  | value => .fail (.unknownOperation value)

/-! ## Executors -/

/-- Resolves an operation and calls its continuation on the outcome. -/
def execute (dispatch : Dispatch κ β) (backend : Backend (Value κ)) :
    Value κ → Action κ β (Value κ)
  | .operation op => do
      let outcome ← resolve dispatch backend (.operation op)
      dispatch.apply op.next [outcome]
  | value => .fail (.missingMember value "next")

/-- Resolves an operation against an awaited backend and calls its continuation. -/
def executeAsync (dispatch : Dispatch κ β) (backend : Backend (Value κ)) :
    Value κ → Action κ β (Value κ)
  | .operation op => do
      let outcome ← await (resolveAsync dispatch backend (.operation op))
      dispatch.apply op.next [outcome]
  | value => .fail (.missingMember value "next")

end Backend

end Workflow
