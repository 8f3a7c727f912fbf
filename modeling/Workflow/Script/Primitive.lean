import Workflow.Script.Stores
import Workflow.Query
import Workflow.Drive

/-!
# The strict forms

What each strict form does with the values of its operands.  A form that is given an operand of
another kind than it takes fails under its own name; the operations and combinators of programs
check nothing here, since what they are given is found out when it is used.
-/

namespace Workflow.Script

namespace Primitive

/-- The word that a strict form begins with. -/
def head : Primitive → String
  | .list => "list"
  | .tuple => "tuple"
  | .add => "add"
  | .sub => "sub"
  | .mul => "mul"
  | .lt => "lt"
  | .eq => "eq"
  | .cat => "cat"
  | .len => "len"
  | .get => "get"
  | .put => "put"
  | .range => "range"
  | .display => "repr"
  | .kind => "kind"
  | .call => "call"
  | .operationOf asked => asked.name
  | .mapOperation => "map_operation"
  | .next => "next"
  | .operation => "operation"
  | .id => "id"
  | .doc => "doc"
  | .terminal => "terminal"
  | .pending => "pending"
  | .programOf asked => asked.verb
  | .programThen asked => asked.verb ++ "_"
  | .mapProgram => "map_program"
  | .andThen => "and_then"
  | .pair => "pair"
  | .sequence => "sequence"
  | .traverse => "traverse"
  | .isProgram => "is_program"
  | .ensureProgram => "ensure_program"
  | .query => "Query"
  | .start _ => "Q"
  | .method _ => "q"
  | .querySequence => "query_sequence"
  | .queryProgram => "query_program"
  | .asProgram => "as_program"
  | .resolve => "resolve"
  | .executor => "executor"
  | .runStepped => "run_icrud"
  | .evaluate => "eval_icrud"
  | .routineOf => "do_of"

/-- The strict forms that their first word alone determines. -/
def all : List Primitive :=
  [.list, .tuple, .add, .sub, .mul, .lt, .eq, .cat, .len, .get, .put, .range, .display, .kind,
   .call, .mapOperation, .next, .operation, .id, .doc, .terminal, .pending, .mapProgram, .andThen,
   .pair, .sequence, .traverse, .isProgram, .ensureProgram, .query, .querySequence, .queryProgram,
   .asProgram, .resolve, .executor, .runStepped, .evaluate, .routineOf] ++
  RequestKind.all.map .operationOf ++ RequestKind.all.map .programOf ++
  RequestKind.all.map .programThen

def named? (head : String) : Option Primitive :=
  all.find? fun primitive => primitive.head == head

end Primitive

section Queries

variable {κ β : Type}

/-- The program that a verb builds of its operands. -/
def Verb.program? : Verb → List (Value κ) → Option (Value κ)
  | .request asked, operands =>
      match asked.request? operands with
      | some (made, []) => some made.toProgram
      | _ => none
  | .finished, [value] => some (.terminal value)
  | .finished, _ => none

/-- What is done with a query, given its program and the other operands. -/
def Method.run (dispatch : Dispatch κ β) (program : Value κ) :
    Method → List (Value κ) → Action κ β (Value κ)
  | .verb word, operands => Query.chain dispatch program (word.program? operands)
  | .map, [f] => Query.map dispatch program f
  | .zip, [other] => Query.zip dispatch program other
  | .zipProgram, [other] => Query.zipProgram dispatch program other
  | .andThen, [f] => Query.andThen dispatch program f
  | .andThenProgram, [f] => Query.andThenProgram dispatch program f
  | .sequence, [queries] => Query.sequence dispatch queries
  | _, _ => .fail .wrongArity

end Queries

def rangeTo (bound : Int) : Value Code :=
  .list ((List.range bound.toNat).map fun n => .int (Int.ofNat n))

def itemAt? (items : List (Value Code)) (index : Int) : Option (Value Code) :=
  if 0 ≤ index then items[index.toNat]? else none

namespace Primitive

/-- The forms that compute with plain data; nothing where the operands do not fit. -/
def data? : Primitive → List (Value Code) → Option (Value Code)
  | .list, items => some (.list items)
  | .tuple, items => some (.tuple items)
  | .add, [.int m, .int n] => some (.int (m + n))
  | .sub, [.int m, .int n] => some (.int (m - n))
  | .mul, [.int m, .int n] => some (.int (m * n))
  | .lt, [.int m, .int n] => some (.bool (m < n))
  | .eq, [one, other] => some (.bool (one.identity == other.identity))
  | .cat, [.text s, .text t] => some (.text (s ++ t))
  | .cat, [.list xs, .list ys] => some (.list (xs ++ ys))
  | .len, [.text s] => some (.int s.length)
  | .len, [.list items] | .len, [.tuple items] => some (.int items.length)
  | .len, [.dict members] => some (.int members.length)
  | .get, [.dict members, .text key] => Scope.get? members key
  | .get, [.list items, .int index] | .get, [.tuple items, .int index] => itemAt? items index
  | .put, [.dict members, .text key, value] => some (.dict (Scope.set members key value))
  | .range, [.int bound] => some (rangeTo bound)
  | .display, [value] => some (.text value.display)
  | .kind, [value] => some (.text value.kind)
  | .id, [.operation op] => op.request.id?
  | .doc, [.operation op] => op.request.doc?
  | .operation, [.pending waiting] => some waiting
  | .terminal, [value] => some (.terminal value)
  | .pending, [waiting] => some (.pending waiting)
  | .isProgram, [value] => some (.bool value.isProgram)
  | .queryProgram, [.query program] => some program
  | .operationOf asked, operands =>
      match asked.request? operands with
      | some (made, [f]) => some (.operation ⟨made, f⟩)
      | _ => none
  | .programOf asked, operands =>
      match asked.request? operands with
      | some (made, []) => some made.toProgram
      | _ => none
  | .programThen asked, operands =>
      match asked.request? operands with
      | some (made, [f]) => some (made.thenCall f)
      | _ => none
  | .start verb, operands => (verb.program? operands).map .query
  | _, _ => none

/-- What a strict form does with the values of its operands. -/
def run (dispatch : Dispatch Code Stores) (primitive : Primitive)
    (operands : List (Value Code)) : Act (Value Code) :=
  match primitive, operands with
  | .call, .fn f :: arguments => dispatch.apply (.fn f) arguments
  | .mapOperation, [f, value] => do return ← Workflow.mapOperation f value
  | .next, [.operation op, outcome] => dispatch.apply op.next [outcome]
  | .mapProgram, [f, program] => Workflow.mapProgram dispatch f program
  | .andThen, [program, f] => Workflow.andThen dispatch program f
  | .pair, [first, second] => Workflow.pair dispatch first second
  | .sequence, [programs] => Workflow.sequence dispatch programs
  | .traverse, [f, items] => Workflow.traverse dispatch f items
  | .ensureProgram, [value] => do return ← Workflow.ensureProgram value
  | .query, [value] => do return ← Query.ofProgram value
  | .method chosen, .query program :: operands => chosen.run dispatch program operands
  | .querySequence, [queries] => Query.sequence dispatch queries
  | .asProgram, [value] => do return ← Workflow.asProgram value
  | .resolve, [value] => do (← presentBackend).resolve dispatch value
  | .executor, [] => do return .fn (.executor (← presentBackend))
  | .runStepped, [f, program] => Workflow.runStepped dispatch f program
  | .evaluate, [f, program] => Workflow.evaluate dispatch f program
  | .routineOf, [value] => .fail (.notRoutine value)
  | primitive, operands =>
      match primitive.data? operands with
      | some value => pure value
      | none => .fail (.badOperand primitive.head)

end Primitive

end Workflow.Script
