import HttpServer.Decimal.Buffer
import HttpServer.Fields
import HttpServer.Json.Printer
import HttpServer.Status
import HttpServer.Stream.Sink
import HttpServer.Text

/-!
# Responses

A response as handlers build it, and its wire form. The length of the body is no field of a
response : it is counted when the response is written, so that it cannot go stale. A response
with the status 204 has no body on the wire, and no length.

`pieces` are the stretches that are written one by one, and `render` is all of them together.
-/

namespace HttpServer

/-!
## Values in a body

Numbers of every width are widened to 64 bits and written as numerals by way of a buffer.
-/

/-- A type whose values can be appended to a body. -/
class BodyValue (α : Type) where
  /-- What is appended. -/
  bytes : α → Bytes

instance : BodyValue Bytes := ⟨id⟩
instance : BodyValue String := ⟨utf8⟩
instance : BodyValue Char := ⟨fun c => utf8 c.toString⟩
instance : BodyValue Bool := ⟨fun b => utf8 (if b then "true" else "false")⟩
instance : BodyValue UInt8 := ⟨fun n => Decimal.ofWord n.toUInt64⟩
instance : BodyValue UInt16 := ⟨fun n => Decimal.ofWord n.toUInt64⟩
instance : BodyValue UInt32 := ⟨fun n => Decimal.ofWord n.toUInt64⟩
instance : BodyValue UInt64 := ⟨Decimal.ofWord⟩
instance : BodyValue Int8 := ⟨fun n => Decimal.ofSigned n.toBitVec⟩
instance : BodyValue Int16 := ⟨fun n => Decimal.ofSigned n.toBitVec⟩
instance : BodyValue Int32 := ⟨fun n => Decimal.ofSigned n.toBitVec⟩
instance : BodyValue Int64 := ⟨fun n => Decimal.ofSigned n.toBitVec⟩

/-! ## Building a response -/

/-- The content type of plain text. -/
def textPlain : Bytes := utf8 "text/plain"

/-- The content type of a JSON document. -/
def applicationJson : Bytes := utf8 "application/json"

/-- A response. -/
structure Response where
  /-- The status. -/
  status : Status := .ok
  /-- The value of the `Content-Type` header. -/
  contentType : Bytes := textPlain
  /-- The other headers. -/
  headers : Fields := ∅
  /-- The body. -/
  body : Bytes := []
deriving DecidableEq, Inhabited

namespace Response

/-- The response with another status. -/
def withStatus (r : Response) (s : Status) : Response := { r with status := s }

/-- The response with another content type. -/
def withContentType (r : Response) (v : Bytes) : Response := { r with contentType := v }

/-- The response with a header set. -/
def withHeader (r : Response) (key value : Bytes) : Response :=
  { r with headers := r.headers.insert key value }

/-- The response with another body. -/
def withBody {α : Type} [BodyValue α] (r : Response) (v : α) : Response :=
  { r with body := BodyValue.bytes v }

/-- The response with a body of stretches, one after the other. -/
def withBodyOf (r : Response) (ls : List Bytes) : Response := { r with body := ls.flatten }

/-- The response with a body of plain text. -/
def withText {α : Type} [BodyValue α] (r : Response) (v : α) : Response :=
  (r.withContentType textPlain).withBody v

/-- The response with a JSON document as its body; `none` for a value without a JSON form. -/
def withJson? (r : Response) (v? : Option Json) : Option Response :=
  v?.map fun v => { r with body := utf8 v.render, contentType := applicationJson }

/-- The value of a header. -/
def header? (r : Response) (key : Bytes) : Option Bytes := r.headers.get? key

/-- The length of the body. -/
def contentLength (r : Response) : Nat := r.body.length

/-! ## Wire form -/

/-- The line with the status. -/
def statusPieces (s : Status) : List Bytes :=
  [utf8 "HTTP/1.1 ", Decimal.ofNat s.code, [sp], utf8 s.description]

/-- The lines of the headers. -/
def headerPieces (f : Fields) : List Bytes :=
  f.entries.flatMap fun e => [e.1, [colon, sp], e.2, crlf]

/-- The line with the length of the body, where there is one. -/
def lengthPieces (r : Response) : List Bytes :=
  if r.status = .noContent then []
  else [utf8 "Content-Length: ", Decimal.ofNat r.contentLength, crlf]

/-- The body, where there is one. -/
def bodyPieces (r : Response) : List Bytes := if r.status = .noContent then [] else [r.body]

/-- The stretches of the wire form, in the order in which they are written. -/
def pieces (r : Response) : List Bytes :=
  statusPieces r.status ++ [utf8 "\r\nContent-Type: ", r.contentType, crlf]
    ++ r.lengthPieces ++ headerPieces r.headers ++ [crlf] ++ r.bodyPieces

/-- The wire form. -/
def render (r : Response) : Bytes := r.pieces.flatten

/-- The wire form as text. -/
def text (r : Response) : String := Text.decode r.render

/-- Writes the response to a sink, up to the first failure. -/
def writeTo {σ : Type} [Sink σ] (r : Response) (s : σ) : Except IoError Unit × σ :=
  Sink.writeEach s r.pieces

end Response

end HttpServer
