import Workflow.Session.Reader

/-!
# Responding to sessions

A session comes as a line of text and is answered by one: the array of the answers to its steps.
What is told of a step is its value or its fault, what was done in it, and for the steps that may
reach the store, the store's content.  A text that writes no session is answered by null.
-/

namespace Workflow

open Workflow.Script

namespace Event

def toJson : Event Code → Json
  | .call request =>
      .array (.text "call" :: .text request.kind.verb :: request.operands.map Value.written)
  | .trace label value => .array [.text "trace", .text label, value.written]
  | .log line =>
      .array [.text "log", .text "DEBUG", .text "interpreter", .text line.message]

end Event

namespace Task

/-- Whether the content of the store is told after such a step. -/
def tellsDocs : Task → Bool
  | .drive .. | .resolve _ | .resolveAsync _ => true
  | _ => false

/-- Whether the displayed form of the value is told after such a step. -/
def tellsDisplay : Task → Bool
  | .eval _ => true
  | _ => false

end Task

namespace Answer

/-- The members that tell how a step ended. -/
def ending? (answer : Answer) : List (String × Json) :=
  match answer.ending with
  | .value v =>
      ("value", v.written) ::
        (if answer.step.task.tellsDisplay then [("repr", .text v.display)] else [])
  | .fault cause => [("error", .text cause.kind.name), ("message", .text cause.message)]
  | .unfinished => [("error", .text "Unfinished"), ("message", .text "")]

/-- A list, or in a brief answer its length. -/
def listed (answer : Answer) (items : List Json) : Json :=
  if answer.step.brief then .int items.length else .array items

def toJson (answer : Answer) : Json :=
  let docs := answer.docs.map fun entry => .array [entry.1.written, entry.2.written]
  .object (answer.ending? ++ ("events", answer.listed (answer.events.map Event.toJson)) ::
    (if answer.step.task.tellsDocs then [("docs", answer.listed docs)] else []))

end Answer

namespace Session

/-- The answer to the text of a session, as a text. -/
def respond (source : String) : String :=
  match (Json.parse? source).bind ofJson? with
  | some (session, steps) => (Json.array ((session.answers steps).map Answer.toJson)).render
  | none => Json.null.render

end Session

end Workflow
