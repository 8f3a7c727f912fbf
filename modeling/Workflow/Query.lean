import Workflow.Program.Sequence

/-!
# Queries

A query wraps one program and offers the combinators as methods on it.  The wrapper checks at
once that it is given a program, where the combinators themselves find out only when they walk
it.  A verb starts a query, or runs after one and replaces its result.
-/

namespace Workflow

namespace Query

variable {κ β : Type}

def ofProgram (value : Value κ) : Except (Fault κ) (Value κ) := do
  return .query (← ensureProgram value)

def wrapping (build : Action κ β (Value κ)) : Action κ β (Value κ) := do
  let program ← build
  ofProgram program

def map (dispatch : Dispatch κ β) (program f : Value κ) : Action κ β (Value κ) :=
  wrapping (mapProgram dispatch f program)

/-- Pairs the query's result with that of a bare program. -/
def zipProgram (dispatch : Dispatch κ β) (program other : Value κ) : Action κ β (Value κ) :=
  wrapping (pair dispatch program other)

def zip (dispatch : Dispatch κ β) (program other : Value κ) : Action κ β (Value κ) :=
  match other with
  | .query second => zipProgram dispatch program second
  | value => .fail (.missingMember value "program")

/-- Continues with the bare program that `f` makes of the query's result. -/
def andThenProgram (dispatch : Dispatch κ β) (program f : Value κ) : Action κ β (Value κ) :=
  wrapping (Workflow.andThen dispatch program f)

def andThen (dispatch : Dispatch κ β) (program f : Value κ) : Action κ β (Value κ) :=
  andThenProgram dispatch program (.fn (.compose (.fn .asProgram) f))

/-- Runs `next` after the query and keeps only its result. -/
def followedBy (dispatch : Dispatch κ β) (program next : Value κ) : Action κ β (Value κ) :=
  andThenProgram dispatch program (.fn (.always next))

/-- Runs after the query the program that a verb makes of its operands.  That the verb does not take
them is found out when its turn comes. -/
def chain (dispatch : Dispatch κ β) (program : Value κ) (next? : Option (Value κ)) :
    Action κ β (Value κ) :=
  andThenProgram dispatch program (.fn (next?.elim .misfit .always))

/-- The programs of the queries that a value lists. -/
def programsOf (queries : Value κ) : Except (Fault κ) (List (Value κ)) := do
  (← itemsOf queries).mapM asProgram

/-- The query of every result; all elements are checked before anything is built. -/
def sequence (dispatch : Dispatch κ β) (queries : Value κ) : Action κ β (Value κ) := do
  let programs ← programsOf queries
  wrapping (sequenceFrom dispatch programs [])

end Query

end Workflow
