import HttpServer.Context
import HttpServer.Log

/-!
# Handlers

A handler answers the request of a context. What it does is a program of a few actions : it
looks at the context, changes the request and the response, writes the response, closes the
connection, and says things to the listeners of the program. It ends with a status, fails
with an error, or panics. Nothing else is in its power, so what holds of every program holds
of every handler.

`Handling.run` carries a program out on a context.
-/

namespace HttpServer

/-- Why a handler gave up. -/
inductive HandlerError where
  /-- For a reason of its own. -/
  | message (text : String)
  /-- The body is no JSON document, or a value has no JSON form. -/
  | json
  /-- The stream failed. -/
  | io (source : IoError)
  /-- It panicked. -/
  | panic (text : String)
deriving DecidableEq, Repr, Inhabited

/-- The wording of a handler error. -/
def HandlerError.text : HandlerError → String
  | message text => text
  | json => "json: malformed document"
  | io source => s!"io: {source.text}"
  | panic text => s!"handler panicked: {text}"

/-- What can be said about a panic : its text, if it has one. -/
def panicText (payload? : Option String) : String := payload?.getD "unknown panic"

/-- A program of actions on a context that ends with a value. -/
inductive Handling (α : Type) where
  /-- Ends. -/
  | done (a : α)
  /-- Fails. -/
  | fail (e : HandlerError)
  /-- Panics, with a text or with something that has none. -/
  | panic (payload? : Option String)
  /-- Looks at the context. -/
  | look (next : Context → Handling α)
  /-- Changes the request and the response. -/
  | put (request : Request) (response : Response) (next : Handling α)
  /-- Writes the response. -/
  | write (next : Except IoError Unit → Handling α)
  /-- Closes the connection. -/
  | close (next : Handling α)
  /-- Says something to the listeners of the program. -/
  | say (line : LogLine) (next : Handling α)

/-- How a program ended. -/
inductive Outcome (α : Type) where
  | done (a : α)
  | failed (e : HandlerError)
  | panicked (payload? : Option String)
deriving DecidableEq, Repr

/-- What a program leaves behind. -/
structure Handled (α : Type) where
  /-- How it ended. -/
  outcome : Outcome α
  /-- The context as the program left it. -/
  context : Context
  /-- What was said to the listeners of the program. -/
  events : List Event := []

namespace Handling

variable {α β : Type}

/-- The program that goes on with the value a program ends with. -/
def bind : Handling α → (α → Handling β) → Handling β
  | done a, f => f a
  | fail e, _ => fail e
  | panic p, _ => panic p
  | look next, f => look fun c => (next c).bind f
  | put q r next, f => put q r (next.bind f)
  | write next, f => write fun x => (next x).bind f
  | close next, f => close (next.bind f)
  | say line next, f => say line (next.bind f)

instance : Monad Handling where
  pure := done
  bind := bind

/-- Carries a program out on a context. -/
def run : Handling α → Context → Handled α
  | done a, c => { outcome := .done a, context := c }
  | fail e, c => { outcome := .failed e, context := c }
  | panic p, c => { outcome := .panicked p, context := c }
  | look next, c => (next c).run c
  | put request response next, c => next.run { c with request, response }
  | write next, c => (next c.writeResponse.1).run c.writeResponse.2
  | close next, c => next.run c.close
  | say line next, c =>
    let h := next.run c
    { h with events := { line } :: h.events }

/-! ## Actions -/

/-- The context. -/
def context : Handling Context := look done

/-- The request. -/
def request : Handling Request := look fun c => done c.request

/-- Changes the response. -/
def respond (f : Response → Response) : Handling Unit :=
  look fun c => put c.request (f c.response) (done ())

/-- Changes the response, or fails if there is none to change to. -/
def respond? (f : Response → Option Response) : Handling Unit :=
  look fun c =>
    match f c.response with
    | some r => put c.request r (done ())
    | none => fail .json

/-- Writes the response, and fails if that fails. -/
def writeResponse : Handling Unit :=
  write fun
    | .ok () => done ()
    | .error e => fail (.io e)

/-- Closes the connection. -/
def closeConnection : Handling Unit := close (done ())

/-- Says something that is worth knowing. -/
def info (message : String) : Handling Unit := say { level := .info, message } (done ())

/-- The body of the request as a JSON document; fails if it is none. -/
def json : Handling Json :=
  look fun c =>
    match c.request.json? with
    | some j => done j
    | none => fail .json

end Handling

/-- A handler : a program that ends with the status of the exchange. -/
abbrev Handler := Handling Status

namespace Handler

/-- A page that says nothing but a status. -/
def page (s : Status) : Handler := do
  Handling.respond fun r => (r.withStatus s).withText s.description
  return s

/-- The statuses that have a page from the start. -/
def defaultPages : List Status :=
  [.badRequest, .notFound, .methodNotAllowed, .internalServerError]

end Handler

end HttpServer
