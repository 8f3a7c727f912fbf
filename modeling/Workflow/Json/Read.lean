import Workflow.Json

/-!
# Reading JSON

A reader of documents whose numbers are integers.  Members of objects are kept in the order in
which they stand.  Each step of the reader consumes a character or goes one level down, so the
length of the text bounds its depth.  A reader answers with what it has found and the characters
that follow it.
-/

namespace Workflow.Json

def skipBlanks (chars : List Char) : List Char :=
  chars.dropWhile fun c => c = ' ' ∨ c = '\n' ∨ c = '\r' ∨ c = '\t'

def hexDigit? (c : Char) : Option Nat :=
  if '0' ≤ c ∧ c ≤ '9' then some (c.toNat - '0'.toNat)
  else if 'a' ≤ c ∧ c ≤ 'f' then some (c.toNat - 'a'.toNat + 10)
  else if 'A' ≤ c ∧ c ≤ 'F' then some (c.toNat - 'A'.toNat + 10)
  else none

def hexNumber? (digits : List Char) : Option Nat :=
  digits.foldlM (fun total c => do return total * 16 + (← hexDigit? c)) 0

/-- The character that a letter stands for after a backslash. -/
def escaped? : Char → Option Char
  | '\x22' => some '\x22'
  | '\x5c' => some '\x5c'
  | '/' => some '/'
  | 'b' => some '\x08'
  | 'f' => some '\x0c'
  | 'n' => some '\n'
  | 'r' => some '\r'
  | 't' => some '\t'
  | _ => none

/-- Adds a code unit to code points, latest first; the second half of a surrogate pair joins the
first half in front of it. -/
def addUnit (unit : Nat) : List Nat → List Nat
  | high :: earlier =>
      if 0xD800 ≤ high ∧ high < 0xDC00 ∧ 0xDC00 ≤ unit ∧ unit < 0xE000 then
        (0x10000 + (high - 0xD800) * 0x400 + (unit - 0xDC00)) :: earlier
      else
        unit :: high :: earlier
  | [] => [unit]

/-- Reads a text whose opening quote has been read; `found` holds its code points, latest
first. -/
def readText (found : List Nat) : List Char → Option (String × List Char)
  | [] => none
  | '\x22' :: rest => some (String.ofList (found.reverse.map Char.ofNat), rest)
  | '\x5c' :: 'u' :: a :: b :: c :: d :: rest => do
      let unit ← hexNumber? [a, b, c, d]
      readText (addUnit unit found) rest
  | '\x5c' :: letter :: rest => do
      let c ← escaped? letter
      readText (c.toNat :: found) rest
  | c :: rest => readText (c.toNat :: found) rest

def readInt (chars : List Char) : Option (Json × List Char) := do
  let (negative, chars) := match chars with
    | '-' :: rest => (true, rest)
    | _ => (false, chars)
  let digits := chars.takeWhile Char.isDigit
  if digits.isEmpty then none
  let size := digits.foldl (fun total c => total * 10 + (c.toNat - '0'.toNat)) 0
  let n : Int := if negative then -size else size
  return (.int n, chars.drop digits.length)

mutual

def readDocument : Nat → List Char → Option (Json × List Char)
  | 0, _ => none
  | depth + 1, chars =>
      match skipBlanks chars with
      | 'n' :: 'u' :: 'l' :: 'l' :: rest => some (.null, rest)
      | 't' :: 'r' :: 'u' :: 'e' :: rest => some (.bool true, rest)
      | 'f' :: 'a' :: 'l' :: 's' :: 'e' :: rest => some (.bool false, rest)
      | '\x22' :: rest => do
          let (s, rest) ← readText [] rest
          return (.text s, rest)
      | '[' :: rest =>
          match skipBlanks rest with
          | ']' :: rest => some (.array [], rest)
          | rest => readItems depth [] rest
      | '\x7b' :: rest =>
          match skipBlanks rest with
          | '\x7d' :: rest => some (.object [], rest)
          | rest => readMembers depth [] rest
      | chars => readInt chars

/-- Reads the items of an array up to its end; `found` holds the earlier ones, latest first. -/
def readItems : Nat → List Json → List Char → Option (Json × List Char)
  | 0, _, _ => none
  | depth + 1, found, chars => do
      let (item, rest) ← readDocument depth chars
      match skipBlanks rest with
      | ',' :: rest => readItems depth (item :: found) rest
      | ']' :: rest => return (.array (item :: found).reverse, rest)
      | _ => none

/-- Reads the members of an object up to its end; `found` holds the earlier ones, latest
first. -/
def readMembers : Nat → List (String × Json) → List Char → Option (Json × List Char)
  | 0, _, _ => none
  | depth + 1, found, chars =>
      match skipBlanks chars with
      | '\x22' :: rest => do
          let (key, rest) ← readText [] rest
          match skipBlanks rest with
          | ':' :: rest =>
              let (document, rest) ← readDocument depth rest
              match skipBlanks rest with
              | ',' :: rest => readMembers depth ((key, document) :: found) rest
              | '\x7d' :: rest => return (.object ((key, document) :: found).reverse, rest)
              | _ => none
          | _ => none
      | _ => none

end

def parse? (source : String) : Option Json := do
  let chars := source.toList
  let (document, rest) ← readDocument (chars.length + 1) chars
  if (skipBlanks rest).isEmpty then return document else none

end Workflow.Json
