/-!
# JSON trees

JSON documents whose numbers are integers.  Members of an object keep the order in which they
stand.  Two trees say the same when they agree up to that order, at every level; the
representative with sorted members decides it.
-/

namespace Workflow

inductive Json where
  | null
  | bool (b : Bool)
  | int (n : Int)
  | text (s : String)
  | array (items : List Json)
  | object (members : List (String × Json))
  deriving Inhabited

namespace Json

/-! ## Access -/

def member? (key : String) : Json → Option Json
  | .object members => (members.find? fun entry => entry.1 == key).map (·.2)
  | _ => none

/-- The text that a document consists of. -/
def text? : Json → Option String
  | .text s => some s
  | _ => none

def nat? : Json → Option Nat
  | .int (.ofNat n) => some n
  | _ => none

def items? : Json → Option (List Json)
  | .array items => some items
  | _ => none

def isTrue : Json → Bool
  | .bool b => b
  | _ => false

/-! ## Sorted members -/

mutual

/-- The document with the members of every object in the order of their keys. -/
def sorted : Json → Json
  | .array items => .array (sortedItems items)
  | .object members =>
      .object ((sortedMembers members).mergeSort fun one other => decide (one.1 ≤ other.1))
  | document => document

def sortedItems : List Json → List Json
  | [] => []
  | item :: rest => sorted item :: sortedItems rest

/-- The members of an object, each with sorted members inside, still in their own order. -/
def sortedMembers : List (String × Json) → List (String × Json)
  | [] => []
  | (key, document) :: rest => (key, sorted document) :: sortedMembers rest

end

end Json

end Workflow
