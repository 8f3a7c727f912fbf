import Workflow.Script.Primitive

/-!
# Reading scripts

Scripts are written as JSON documents: a form is an array whose first item is the word it begins
with.  A document that writes no script has no reading.
-/

namespace Workflow.Script

def namesOf? (documents : List Json) : Option (List String) :=
  documents.mapM Json.text?

def Verb.named? (word : String) : Option Verb :=
  if word == "finished" then some .finished
  else (RequestKind.all.find? fun kind => kind.verb == word).map .request

def Method.named? (word : String) : Option Method :=
  match word with
  | "map" => some .map
  | "zip" => some .zip
  | "zip_" => some .zipProgram
  | "and_then" => some .andThen
  | "and_then_" => some .andThenProgram
  | "sequence" => some .sequence
  | word => (Verb.named? word).map .verb

mutual

/-- The expression that a document writes. -/
def Expr.ofJson? : Json → Option Expr
  | .array (.text head :: operands) =>
      match head, operands with
      | "lit", [data] => some (.lit data)
      | "var", [.text name] => some (.var name)
      | "let", [.text name, value, body] => do
          return .bind name (← Expr.ofJson? value) (← Expr.ofJson? body)
      | "fn", [.array parameters, body] => do
          return .function (← namesOf? parameters) (← Expr.ofJson? body)
      | "do", [.array parameters, .array body] => do
          return .routine (← namesOf? parameters) (← Stmt.allOfJson? body)
      | "if", [test, whenTrue, whenFalse] => do
          return .branch (← Expr.ofJson? test) (← Expr.ofJson? whenTrue)
            (← Expr.ofJson? whenFalse)
      | "trace", [.text label, value] => do
          return .trace label (← Expr.ofJson? value)
      | "raise", [.text kind, .text message] => do
          return .raise (← FaultClass.named? kind) message
      | "catch", [body, .text kind, handler] => do
          return .guarded (← Expr.ofJson? body) kind (← Expr.ofJson? handler)
      | "obj", members => do
          return .dict (← Expr.membersOfJson? members)
      | "Q", .text word :: operands => do
          return .strict (.start (← Verb.named? word)) (← Expr.allOfJson? operands)
      | "q", query :: .text word :: operands => do
          return .strict (.method (← Method.named? word))
            ((← Expr.ofJson? query) :: (← Expr.allOfJson? operands))
      | head, operands => do
          return .strict (← Primitive.named? head) (← Expr.allOfJson? operands)
  | _ => none

def Expr.allOfJson? : List Json → Option (List Expr)
  | [] => some []
  | document :: rest => do
      return (← Expr.ofJson? document) :: (← Expr.allOfJson? rest)

/-- The members that pairs of a key and an expression write, in order. -/
def Expr.membersOfJson? : List Json → Option (List (String × Expr))
  | [] => some []
  | .array [.text key, member] :: rest => do
      return (key, ← Expr.ofJson? member) :: (← Expr.membersOfJson? rest)
  | _ :: _ => none

def Stmt.ofJson? : Json → Option Stmt
  | .array (.text head :: operands) =>
      match head, operands with
      | "yield", [.text name, value] => do
          return .yield name (← Expr.ofJson? value)
      | "set", [.text name, value] => do
          return .assign name (← Expr.ofJson? value)
      | "return", [value] => do
          return .ret (← Expr.ofJson? value)
      | "if", [test, .array whenTrue, .array whenFalse] => do
          return .branch (← Expr.ofJson? test) (← Stmt.allOfJson? whenTrue)
            (← Stmt.allOfJson? whenFalse)
      | "for", [.text name, items, .array body] => do
          return .loop name (← Expr.ofJson? items) (← Stmt.allOfJson? body)
      | "try", [.array body, .text kind, .text name, .array handler, .array final] => do
          return .guarded (← Stmt.allOfJson? body) kind name (← Stmt.allOfJson? handler)
            (← Stmt.allOfJson? final)
      | _, _ => none
  | _ => none

def Stmt.allOfJson? : List Json → Option (List Stmt)
  | [] => some []
  | document :: rest => do
      return (← Stmt.ofJson? document) :: (← Stmt.allOfJson? rest)

end

end Workflow.Script
