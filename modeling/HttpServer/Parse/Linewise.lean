import HttpServer.Config
import HttpServer.Parse.Error
import HttpServer.Request
import HttpServer.Stream.Memory
import HttpServer.Stream.Reader

/-!
# Parsing line by line

A `LineParser` takes whole lines and then a whole body from a buffered reader, waiting for
the source as long as it takes. A line is judged only when it is complete; within it, the
first place at which it departs from the grammar is reported.

Before the body is read, room is made for all of it. A length for which there can be no room
is a panic, and `parse?` has no answer then; `parse` is the same without a bound on the room.
-/

namespace HttpServer

/-- A parser that reads whole lines. -/
structure LineParser where
  /-- The limits on a request. -/
  limits : Limits := {}
deriving DecidableEq, Repr

namespace LineParser

/-- The version and the line end that every start line ends with. -/
def versionLine : Bytes := utf8 "HTTP/1.1" ++ crlf

/-- The place at which the part of a start line after the second blank departs from
`versionLine`. -/
def versionFault (l : Bytes) : ParseState :=
  match l with
  | [] => .space2
  | b :: _ =>
    if b ≠ 72 then .space2
    else
      match l.reverse with
      | last :: c :: _ => if c = cr ∧ last ≠ lf then .newLine else .version
      | _ => .version

/-- Reads a start line, its line end included. -/
def startLine (line : Bytes) : Except ParseError Request :=
  if (line.head?.map isAlpha).getD false = false then .error (.atState .start)
  else
    match splitAtByte? sp line with
    | none => .error (.atState .method)
    | some (token, rest) =>
      if token.all isAlpha = false ∨ Method.ofToken token = .invalid then
        .error (.atState .method)
      else if rest.head? ≠ some slash then .error (.atState .space1)
      else
        match splitAtByte? sp rest with
        | none => .error (.atState .path)
        | some (path, version) =>
          if path.all isPathByte = false then .error (.atState .path)
          else if version ≠ versionLine then .error (.atState (versionFault version))
          else .ok { method := Method.ofToken token, path := Path.clean path }

/-- The line without its line end, if it has a whole one. -/
def dropLineEnd? (line : Bytes) : Option Bytes :=
  if crlf.isSuffixOf line then some (line.take (line.length - 2)) else none

/-- Reads a header line, its line end included, into a request. -/
def headerLine (r : Request) (line : Bytes) : Except ParseError Request :=
  match dropLineEnd? line with
  | none => .error (.atState .headerValue)
  | some content =>
    match splitAtByte? colon content with
    | none => .error (.atState .headerKey)
    | some (key, rest) =>
      if key = [] ∨ key.all isKeyByte = false then .error (.atState .headerKey)
      else
        match rest with
        | [] => .error (.atState .colon)
        | b :: value =>
          if b ≠ sp then .error (.atState .colon)
          else if (value.head?.map isValueByte).getD false = false then
            .error (.atState .space3)
          else if value.all isValueByte = false then .error (.atState .headerValue)
          else
            match r.setHeader? key value with
            | none => .error (.atState .headerValue)
            | some r' => .ok r'

variable {σ : Type} [Source σ]

/-- Takes the next line of the head; `blamed` is the place that answers for a line that is
too long. -/
def nextLine (p : LineParser) (r : Reader σ) (blamed : ParseState) :
    Except ParseError Bytes × Reader σ :=
  match r.readLine p.limits.lineCap with
  | (.ok (some line), r') => (.ok line, r')
  | (.ok none, r') => (.error .read, r')
  | (.error e, r') =>
    (.error (if e.kind = .invalidData then .atState blamed else .read), r')

theorem remaining_nextLine {p : LineParser} {r r' : Reader σ} {s : ParseState} {line : Bytes}
    (h : p.nextLine r s = (.ok line, r')) : r'.remaining < r.remaining := by
  unfold nextLine at h
  split at h
  · rename_i hr
    obtain ⟨h1, rfl⟩ := Prod.mk.inj h
    obtain rfl := Except.ok.inj h1
    have := Reader.remaining_scanLine hr
    omega
  · cases h
  · cases h

/-- Takes header lines up to and including the empty line that ends the head. -/
def headers (p : LineParser) (r : Reader σ) (q : Request) :
    Except ParseError Request × Reader σ :=
  match _h : p.nextLine r .headerValue with
  | (.error e, r') => (.error e, r')
  | (.ok line, r') =>
    if line = crlf then (.ok q, r')
    else if line = [lf] then (.error (.atState .endLine), r')
    else
      match headerLine q line with
      | .error e => (.error e, r')
      | .ok q' => headers p r' q'
termination_by r.remaining
decreasing_by exact remaining_nextLine _h

theorem headers_eq (p : LineParser) (r : Reader σ) (q : Request) :
    p.headers r q =
      match p.nextLine r .headerValue with
      | (.error e, r') => (.error e, r')
      | (.ok line, r') =>
        if line = crlf then (.ok q, r')
        else if line = [lf] then (.error (.atState .endLine), r')
        else
          match headerLine q line with
          | .error e => (.error e, r')
          | .ok q' => p.headers r' q' := by
  rw [headers]
  split <;> simp only [*]

/-- Takes the head of a request, up to and including the empty line that ends it. -/
def head (p : LineParser) (r : Reader σ) : Except ParseError Request × Reader σ :=
  match p.nextLine r .path with
  | (.error e, r') => (.error e, r')
  | (.ok line, r') =>
    match startLine line with
    | .error e => (.error e, r')
    | .ok q => p.headers r' q

/-- Takes the body that a head declares. -/
def body (p : LineParser) (r : Reader σ) (q : Request) : Except ParseError Request × Reader σ :=
  if p.limits.maxBody < q.contentLength then (.error (.bodyTooLarge q.contentLength), r)
  else if q.contentLength = 0 then (.ok q, r)
  else
    match r.readExact q.contentLength with
    | (.ok l, r') => (.ok { q with body := l }, r')
    | (.error _, r') => (.error .bodyLength, r')

/-- Takes one request from the reader. -/
def parse (p : LineParser) (r : Reader σ) : Except ParseError Request × Reader σ :=
  match p.head r with
  | (.error e, r') => (.error e, r')
  | (.ok q, r') => p.body r' q

/-- Takes one request from bytes that are all there. -/
def parseBytes (p : LineParser) (l : Bytes) : Except ParseError Request × Reader MemoryStream :=
  p.parse (Reader.ofSource (MemoryStream.ofInput l))

/-! ## With room for the body -/

/-- Takes the body that a head declares. If it is within the limit, room is made for it. -/
def body? (p : LineParser) (r : Reader σ) (q : Request) :
    Option (Except ParseError Request × Reader σ) :=
  if q.contentLength ≤ p.limits.maxBody ∧ q.contentLength ≠ 0 then
    (reserve? q.body.length q.contentLength).map fun () => p.body r q
  else some (p.body r q)

/-- Takes one request from the reader. -/
def parse? (p : LineParser) (r : Reader σ) : Option (Except ParseError Request × Reader σ) :=
  match p.head r with
  | (.error e, r') => some (.error e, r')
  | (.ok q, r') => p.body? r' q

/-- Takes one request from bytes that are all there. -/
def parseBytes? (p : LineParser) (l : Bytes) :
    Option (Except ParseError Request × Reader MemoryStream) :=
  p.parse? (Reader.ofSource (MemoryStream.ofInput l))

end LineParser

end HttpServer
