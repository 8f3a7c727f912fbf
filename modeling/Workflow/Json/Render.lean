import Workflow.Json
import Workflow.Text.Quoted

/-!
# Writing JSON

The text of a document, on one line.  Text is written between double quotes; the quote, the
backslash and control characters are escaped, all other characters stand for themselves.
-/

namespace Workflow.Json

open Workflow.Text

/-- One character of a text between double quotes. -/
def escape (c : Char) : String :=
  if c = Quoted.doubleQuote ∨ c = Quoted.backslash then "\\" ++ c.toString
  else if c.toNat < 0x20 then "\\u" ++ Quoted.hex 4 c.toNat
  else c.toString

/-- Adds a text between double quotes to what is written so far. -/
def writeText (written s : String) : String :=
  let quote := Quoted.doubleQuote
  (s.foldl (fun written c => written ++ escape c) (written.push quote)).push quote

mutual

/-- Adds a document to what is written so far. -/
def write (written : String) : Json → String
  | .null => written ++ "null"
  | .bool true => written ++ "true"
  | .bool false => written ++ "false"
  | .int n => written ++ toString n
  | .text s => writeText written s
  | .array items => writeItems (written ++ "[") items ++ "]"
  | .object members => writeMembers (written ++ "\x7b") members ++ "\x7d"

def writeItems (written : String) : List Json → String
  | [] => written
  | [item] => write written item
  | item :: rest => writeItems (write written item ++ ",") rest

def writeMembers (written : String) : List (String × Json) → String
  | [] => written
  | [(key, document)] => write (writeText written key ++ ":") document
  | (key, document) :: rest =>
      writeMembers (write (writeText written key ++ ":") document ++ ",") rest

end

def render (document : Json) : String :=
  write "" document

/-- The text that is the same for two documents exactly when they say the same. -/
def canonical (document : Json) : String :=
  document.sorted.render

end Workflow.Json
