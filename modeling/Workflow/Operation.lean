/-!
# Requests, operations and backends

A persistence step is one of four requests.  An operation is a request together with the
function that receives its outcome, and a backend is the four functions that answer requests.
All three are stated over an arbitrary type `V` of values, because the values of the library
contain operations and backends themselves.
-/

namespace Workflow

/-- The four requests, without their operands. -/
inductive RequestKind where
  | getById
  | getAll
  | update
  | create
  deriving DecidableEq

namespace RequestKind

/-- The name under which an operation with such a request is written. -/
def name : RequestKind → String
  | .getById => "GetById"
  | .getAll => "GetAll"
  | .update => "Update"
  | .create => "Create"

/-- The verb under which a backend is asked. -/
def verb : RequestKind → String
  | .getById => "get_by_id"
  | .getAll => "get_all"
  | .update => "update"
  | .create => "create"

def all : List RequestKind :=
  [.getById, .getAll, .update, .create]

end RequestKind

/-- One primitive persistence step, without what follows it. -/
inductive Request (V : Type) where
  | getById (id : V)
  | getAll
  | update (id doc : V)
  /-- Insert `doc` under an identifier that the backend chooses. -/
  | create (doc : V)

/-- A request and the function that its outcome is handed to. -/
structure Operation (V : Type) where
  request : Request V
  /-- The continuation, a function value in well-formed programs. -/
  next : V

/-- The four functions that answer the four requests. -/
structure Backend (V : Type) where
  /-- Answers `Request.getById` with the document. -/
  getById : V
  /-- Answers `Request.getAll` with something that can be listed. -/
  getAll : V
  /-- Performs `Request.update`; its answer is not used. -/
  update : V
  /-- Answers `Request.create` with the identifier it chose. -/
  create : V

namespace Request

def kind {V : Type} : Request V → RequestKind
  | .getById _ => .getById
  | .getAll => .getAll
  | .update _ _ => .update
  | .create _ => .create

def operands {V : Type} : Request V → List V
  | .getById id => [id]
  | .getAll => []
  | .update id doc => [id, doc]
  | .create doc => [doc]

/-- The identifier that the request names, if it names one. -/
def id? {V : Type} : Request V → Option V
  | .getById id => some id
  | .update id _ => some id
  | .getAll | .create _ => none

/-- The document that the request carries, if it carries one. -/
def doc? {V : Type} : Request V → Option V
  | .update _ doc => some doc
  | .create doc => some doc
  | .getById _ | .getAll => none

end Request

/-- The request made of the first operands, and the operands that are left. -/
def RequestKind.request? {V : Type} : RequestKind → List V → Option (Request V × List V)
  | .getById, id :: rest => some (.getById id, rest)
  | .getAll, rest => some (.getAll, rest)
  | .update, id :: doc :: rest => some (.update id doc, rest)
  | .create, doc :: rest => some (.create doc, rest)
  | _, _ => none

end Workflow
