import HttpServer.Address
import HttpServer.Parse.Linewise
import HttpServer.Response
import HttpServer.Stream
import HttpServer.Stream.Writer

/-!
# Contexts

One exchange on one connection : the request that came in, the response that goes out, and
the stream between. A request that could not be parsed still makes a context, with an empty
request and the reason, so that it can be answered. A context that is given up closes its
stream.
-/

namespace HttpServer

/-- Sends a response through a buffer and flushes it, up to the first failure. -/
def Response.send {σ : Type} [Sink σ] (r : Response) (w : Writer σ) :
    Except IoError Unit × Writer σ :=
  match w.writeEach r.pieces with
  | (.ok (), w') => w'.flush
  | (.error e, w') => (.error e, w')

/-- An exchange on a connection. -/
structure Context where
  /-- The request, empty if it was rejected. -/
  request : Request := {}
  /-- The response. -/
  response : Response := {}
  /-- The stream of the connection. -/
  stream : Stream
  /-- Where the connection comes from. -/
  peer? : Option Address := none
  /-- Why the request was rejected. -/
  parseError? : Option ParseError := none
deriving DecidableEq

namespace Context

/-- The request with the address of the peer as its host, if it names none itself. -/
def fillHost (r : Request) (peer? : Option Address) : Request :=
  match peer? with
  | some a => if r.host = [] then { r with host := a.host } else r
  | none => r

/-- The context of a request that was read from a stream, or rejected. -/
def ofParsed (parsed : Except ParseError Request) (stream : Stream) (peer? : Option Address) :
    Context :=
  match parsed with
  | .ok r => { request := fillHost r peer?, stream, peer? }
  | .error e => { request := fillHost {} peer?, stream, peer?, parseError? := some e }

/-- Takes a whole request from a stream, waiting for it. Where the parser panics there is no
context. -/
def receive? (p : LineParser) (stream : Stream) (peer? : Option Address) : Option Context :=
  (p.parse? (Reader.ofSource stream)).map fun (parsed, r) => ofParsed parsed r.intoSource peer?

/-- The stream was closed. -/
def isClosed (c : Context) : Bool := c.stream.isClosed

/-- Closes the stream. -/
def close (c : Context) : Context := { c with stream := c.stream.close }

/-- Writes the response to the stream, up to the first failure. -/
def writeResponse (c : Context) : Except IoError Unit × Context :=
  match c.response.send (Writer.ofSink c.stream) with
  | (x, w) => (x, { c with stream := w.sink })

end Context

end HttpServer
