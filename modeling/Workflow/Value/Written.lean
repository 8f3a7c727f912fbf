import Workflow.Value
import Workflow.Json.Render
import Workflow.Json.Read

/-!
# The written form of values

How values stand in JSON documents.  Data that JSON has stands for itself; everything else is an
object with one member that names its kind.  Only plain data can be read back, since nothing is
written of a function and not all of an operation.
-/

namespace Workflow.Value

variable {κ : Type}

def tagged (tag : String) (content : Json) : Json :=
  .object [(tag, content)]

/-- Integers of at least this size are written as text. -/
def writtenIntLimit : Nat := Nat.pow 2 53

def writtenInt (n : Int) : Json :=
  if n.natAbs < writtenIntLimit then .int n else tagged "$int" (.text (toString n))

def writtenBytes (content : List UInt8) : Json :=
  tagged "$bytes" (.text (String.join (content.map fun b => Text.Quoted.hex 2 b.toNat)))

mutual

def written : Value κ → Json
  | .null => .null
  | .bool b => .bool b
  | .int n => writtenInt n
  | .float digits => tagged "$float" (.text digits)
  | .text s => .text s
  | .bytes content => writtenBytes content
  | .list items => .array (writtenItems items)
  | .tuple items => tagged "$tuple" (.array (writtenItems items))
  | .dict members => .object (writtenMembers members)
  | .fn _ => tagged "$fn" (.bool true)
  | .terminal content => tagged "$terminal" (written content)
  | .pending op => tagged "$pending" (written op)
  | .query program => tagged "$query" (written program)
  | .operation ⟨.getById id, _⟩ =>
      tagged "$op" (.object [("op", .text "GetById"), ("id", written id)])
  | .operation ⟨.getAll, _⟩ => tagged "$op" (.object [("op", .text "GetAll")])
  | .operation ⟨.update id doc, _⟩ =>
      tagged "$op" (.object [("op", .text "Update"), ("id", written id), ("doc", written doc)])
  | .operation ⟨.create doc, _⟩ =>
      tagged "$op" (.object [("op", .text "Create"), ("doc", written doc)])

def writtenItems : List (Value κ) → List Json
  | [] => []
  | item :: rest => written item :: writtenItems rest

def writtenMembers : List (String × Value κ) → List (String × Json)
  | [] => []
  | (key, item) :: rest => (key, written item) :: writtenMembers rest

end

/-- The text that is the same for two values exactly when their written forms say the same. -/
def identity (value : Value κ) : String :=
  value.written.canonical

/-- The bytes that pairs of hexadecimal digits write. -/
def bytesOfHex : List Char → List UInt8
  | high :: low :: rest =>
      UInt8.ofNat ((Json.hexNumber? [high, low]).getD 0) :: bytesOfHex rest
  | _ => []

mutual

/-- The plain data that a document writes. -/
def ofWritten : Json → Value κ
  | .null => .null
  | .bool b => .bool b
  | .int n => .int n
  | .text s => .text s
  | .array items => .list (ofWrittenItems items)
  | .object [("$tuple", .array items)] => .tuple (ofWrittenItems items)
  | .object [("$int", .text digits)] => .int (digits.toInt?.getD 0)
  | .object [("$float", .text digits)] => .float digits
  | .object [("$bytes", .text digits)] => .bytes (bytesOfHex digits.toList)
  | .object members => .dict (ofWrittenMembers members)

def ofWrittenItems : List Json → List (Value κ)
  | [] => []
  | item :: rest => ofWritten item :: ofWrittenItems rest

/-- The members of a dictionary that the members of an object write, in order. -/
def ofWrittenMembers : List (String × Json) → Scope κ
  | [] => []
  | (key, item) :: rest => (key, ofWritten item) :: ofWrittenMembers rest

end

end Workflow.Value
