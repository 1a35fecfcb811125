import HttpServer.Decimal
import HttpServer.Fields
import HttpServer.Json.Parser
import HttpServer.Method
import HttpServer.Path
import HttpServer.Text

/-!
# Requests

A request as handlers see it. Three headers have fields of their own, whatever the case of
their keys : the length and the type of the body, and the host. All other headers stand in
`headers` under their exact keys.
-/

namespace HttpServer

/-- A request. -/
structure Request where
  /-- The method. -/
  method : Method := .invalid
  /-- The path in its written form. -/
  path : Bytes := []
  /-- The value of the `Host` header, empty if there is none. -/
  host : Bytes := []
  /-- The value of the `Content-Type` header, empty if there is none. -/
  contentType : Bytes := []
  /-- The declared length of the body. -/
  contentLength : Nat := 0
  /-- The other headers. -/
  headers : Fields := ∅
  /-- The body. -/
  body : Bytes := []
deriving DecidableEq, Inhabited

/-- The headers that have a field of their own. -/
inductive KnownHeader where
  | contentLength
  | contentType
  | host
deriving DecidableEq, Repr

/-- The field of its own that a header key belongs to, in any case of its letters. -/
def KnownHeader.ofKey? (key : Bytes) : Option KnownHeader :=
  if eqIgnoreCase key (utf8 "content-length") then some contentLength
  else if eqIgnoreCase key (utf8 "content-type") then some contentType
  else if eqIgnoreCase key (utf8 "host") then some host
  else none

namespace Request

/-- The request with a header set; `none` for a length that is no decimal number. -/
def setHeader? (r : Request) (key value : Bytes) : Option Request :=
  match KnownHeader.ofKey? key with
  | some .contentLength => (Decimal.read? value).map fun n => { r with contentLength := n }
  | some .contentType => some { r with contentType := value }
  | some .host => some { r with host := value }
  | none => some { r with headers := r.headers.insert key value }

/-- The request with another path, brought into its written form. -/
def withPath (r : Request) (path : Bytes) : Request := { r with path := Path.clean path }

/-- The request with a header set; a length that is no decimal number changes nothing. -/
def withHeader (r : Request) (key value : Bytes) : Request :=
  (r.setHeader? key value).getD r

/-- A header does not touch the body. -/
theorem body_withHeader (r : Request) (key value : Bytes) :
    (r.withHeader key value).body = r.body := by
  unfold withHeader setHeader?
  split
  · cases Decimal.read? value <;> rfl
  all_goals rfl

/-- Whether a header can be set depends on its line alone. -/
theorem setHeader?_eq_none_iff (r s : Request) (key value : Bytes) :
    r.setHeader? key value = none ↔ s.setHeader? key value = none := by
  unfold setHeader?
  split <;> simp

/-- A header that is set leaves the body as it is. -/
theorem body_of_setHeader? {r s : Request} {key value : Bytes}
    (h : r.setHeader? key value = some s) : s.body = r.body := by
  have hbody := r.body_withHeader key value
  rwa [withHeader, h, Option.getD_some] at hbody

/-- The request with a body and the length of that body. -/
def withBody (r : Request) (body : Bytes) : Request :=
  { r with body, contentLength := body.length }

/-- The value of a header that has no field of its own. -/
def header? (r : Request) (key : Bytes) : Option Bytes := r.headers.get? key

/-- The body as text. -/
def text (r : Request) : String := Text.decode r.body

/-- The body as a JSON document, if it is one. -/
def json? (r : Request) : Option Json := Json.ofBytes? r.body

/-- A header line, or nothing for an empty value. -/
def optionalLine (key : String) (value : Bytes) : Bytes :=
  if value = [] then [] else utf8 key ++ [colon, sp] ++ value ++ crlf

/-- The head of the request in wire form. -/
def renderHead (r : Request) : Bytes :=
  r.method.token ++ [sp] ++ r.path ++ utf8 " HTTP/1.1" ++ crlf
    ++ optionalLine "Host" r.host
    ++ optionalLine "Content-Type" r.contentType
    ++ optionalLine "Content-Length"
      (if r.contentLength = 0 then [] else Decimal.ofNat r.contentLength)
    ++ r.headers.lines
    ++ crlf

/-- The request in wire form, with its body as text. -/
def render (r : Request) : Bytes := r.renderHead ++ utf8 r.text

/-- The wire form as text. -/
def display (r : Request) : String := Text.decode r.render

end Request

end HttpServer
