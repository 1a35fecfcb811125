import HttpServer.Bytes
import HttpServer.Decimal

/-!
# Status codes

Every number is a status code; the common ones have a description that follows the code
on the status line.
-/

namespace HttpServer

/-- The status of a response. -/
structure Status where
  /-- The number on the status line. -/
  code : Nat
deriving DecidableEq, Repr

namespace Status

def ok : Status := ⟨200⟩
def noContent : Status := ⟨204⟩
def badRequest : Status := ⟨400⟩
def notFound : Status := ⟨404⟩
def methodNotAllowed : Status := ⟨405⟩
def internalServerError : Status := ⟨500⟩

instance : Inhabited Status := ⟨ok⟩

/-- The words that describe a status. -/
def description (s : Status) : String :=
  match s.code with
  | 200 => "OK"
  | 201 => "Created"
  | 202 => "Accepted"
  | 204 => "No Content"
  | 301 => "Moved Permanently"
  | 302 => "Found"
  | 304 => "Not Modified"
  | 400 => "Bad Request"
  | 401 => "Unauthorized"
  | 403 => "Forbidden"
  | 404 => "Not Found"
  | 405 => "Method Not Allowed"
  | 409 => "Conflict"
  | 413 => "Payload Too Large"
  | 415 => "Unsupported Media Type"
  | 422 => "Unprocessable Entity"
  | 429 => "Too Many Requests"
  | 500 => "Internal Server Error"
  | 501 => "Not Implemented"
  | 503 => "Service Unavailable"
  | _ => "Unknown"

/-- The code followed by its description. -/
def text (s : Status) : String := s!"{s.code} {s.description}"

/-- Only 200 counts as success; every other status has its own error page. -/
def isOk (s : Status) : Bool := s.code == 200

end Status

end HttpServer
