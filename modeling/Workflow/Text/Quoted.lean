/-!
# Quoted text

How text and bytes are written between quotes.  The single quote is used unless the content
holds one and no double quote; the quote in use and the backslash are written with a backslash,
line breaks and tabs by their letters, and what cannot be printed by its number in hexadecimal.
-/

namespace Workflow.Text.Quoted

def singleQuote : Char := '\x27'

/-- The quote for content that holds the other one. -/
def doubleQuote : Char := '\x22'

def backslash : Char := '\x5c'

/-- The quote that content is written between. -/
def quoteFor (content : List Char) : Char :=
  if singleQuote ∈ content ∧ doubleQuote ∉ content then doubleQuote else singleQuote

/-- The first and last code point of each run of characters that have no printed form: controls,
separators other than the space, formatting marks and private use. -/
def unprintableRanges : List (Nat × Nat) :=
  [(0x0, 0x1F), (0x7F, 0xA0), (0xAD, 0xAD), (0x600, 0x605), (0x61C, 0x61C), (0x6DD, 0x6DD),
   (0x70F, 0x70F), (0x890, 0x891), (0x8E2, 0x8E2), (0x1680, 0x1680), (0x180E, 0x180E),
   (0x2000, 0x200F), (0x2028, 0x202F), (0x205F, 0x206F), (0x3000, 0x3000), (0xE000, 0xF8FF),
   (0xFEFF, 0xFEFF), (0xFFF9, 0xFFFB), (0x110BD, 0x110BD), (0x110CD, 0x110CD),
   (0x13430, 0x1343F), (0x1BCA0, 0x1BCA3), (0x1D173, 0x1D17A), (0xE0001, 0xE0001),
   (0xE0020, 0xE007F), (0xF0000, 0x10FFFF)]

def isUnprintable (c : Char) : Bool :=
  unprintableRanges.any fun range => range.1 ≤ c.toNat && c.toNat ≤ range.2

/-- A number in lower-case hexadecimal, filled up with zeros to a width. -/
def hex (width n : Nat) : String :=
  let digits := Nat.toDigits 16 n
  String.ofList (List.replicate (width - digits.length) '0' ++ digits)

/-- The number of a character, with two, four or eight digits. -/
def numbered (n : Nat) : String :=
  if n < 0x100 then "\\x" ++ hex 2 n
  else if n < 0x10000 then "\\u" ++ hex 4 n
  else "\\U" ++ hex 8 n

/-- One character of text between the given quotes. -/
def escape (quote c : Char) : String :=
  if c = quote ∨ c = backslash then "\\" ++ c.toString
  else if c = '\n' then "\\n"
  else if c = '\r' then "\\r"
  else if c = '\t' then "\\t"
  else if isUnprintable c then numbered c.toNat
  else c.toString

def ofText (s : String) : String :=
  let quote := quoteFor s.toList
  quote.toString ++ String.join (s.toList.map (escape quote)) ++ quote.toString

/-- One byte between the given quotes: as text when it is printable, else by its number. -/
def escapeByte (quote : Char) (b : UInt8) : String :=
  if b.toNat < 0x7F then escape quote (Char.ofNat b.toNat) else numbered b.toNat

/-- Bytes between quotes, marked by the letter `b`. -/
def ofBytes (content : List UInt8) : String :=
  let quote := quoteFor (content.map fun b => Char.ofNat b.toNat)
  "b" ++ quote.toString ++ String.join (content.map (escapeByte quote)) ++ quote.toString

end Workflow.Text.Quoted
