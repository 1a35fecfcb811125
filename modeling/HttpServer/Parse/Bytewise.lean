import HttpServer.Config
import HttpServer.Parse.Error
import HttpServer.Request

/-!
# Parsing byte by byte

A `ByteParser` is fed one byte at a time and never touches a stream, so one thread can keep
a parser for every connection and feed each whenever bytes arrive. It walks through the
places of `ParseState`, gathers the current word in `token`, counts the bytes of the current
line, and stops for good at the first byte that does not fit.

Where the head ends, room is made for all of the body that is to follow. A length for which
there can be no room is a panic, and `feed?` and `feedSlice?` have no answer then. `feed` and
`feedSlice` are the same without a bound on the room.
-/

namespace HttpServer

/-- What feeding has led to so far. -/
inductive Progress where
  /-- More bytes are needed. -/
  | pending
  /-- The request is complete. -/
  | complete
deriving DecidableEq, Repr

/-- A parser that is fed byte by byte. -/
structure ByteParser where
  /-- The limits on a request. -/
  limits : Limits := {}
  /-- The place that has been reached. -/
  state : ParseState := .start
  /-- The request read so far, its body left out. -/
  partialRequest : Request := {}
  /-- The body read so far. -/
  body : Array UInt8 := #[]
  /-- The word that is being read. -/
  token : Array UInt8 := #[]
  /-- The key of the header that is being read. -/
  key : Bytes := []
  /-- The number of bytes of the current line. -/
  lineLength : Nat := 0
  /-- Why the request was rejected. -/
  error? : Option ParseError := none

namespace ByteParser

/-- A parser that has read nothing. -/
def ofLimits (limits : Limits) : ByteParser := { limits }

/-- The request read so far. -/
def request (p : ByteParser) : Request := { p.partialRequest with body := p.body.toList }

/-- Stops the parser. -/
def reject (p : ByteParser) (e : ParseError) : Except ParseError Progress × ByteParser :=
  (.error e, { p with state := .error, error? := some e })

/-- Stops the parser at a malformed place. -/
def fail (p : ByteParser) (s : ParseState) : Except ParseError Progress × ByteParser :=
  p.reject (.atState s)

/-- Goes on to a place without an end of the request in sight. -/
def proceed (p : ByteParser) (s : ParseState) : Except ParseError Progress × ByteParser :=
  (.ok .pending, { p with state := s })

/-- Adds a byte to the current word and goes on to a place. -/
def gather (p : ByteParser) (b : UInt8) (s : ParseState) :
    Except ParseError Progress × ByteParser :=
  (.ok .pending, { p with state := s, token := p.token.push b })

/-- Ends the request. -/
def finish (p : ByteParser) : Except ParseError Progress × ByteParser :=
  (.ok .complete, { p with state := .done })

/-- The place that is blamed for a line that is too long. -/
def overlongState (p : ByteParser) : ParseState :=
  if p.state.inStartLine then .path else .headerValue

/-- The version that every start line ends with. -/
def version : Bytes := utf8 "HTTP/1.1"

/-- One byte at the place that has been reached, whatever the length of the line and of the
body. -/
def step (p : ByteParser) (b : UInt8) : Except ParseError Progress × ByteParser :=
  match p.state with
  | .start => if isAlpha b then p.gather b .method else p.fail .start
  | .method =>
    if b = sp then
      let method := Method.ofToken p.token.toList
      let p := { p with partialRequest.method := method, token := #[] }
      if method = .invalid then p.fail .method else p.proceed .space1
    else if isAlpha b then p.gather b .method
    else p.fail .method
  | .space1 => if b = slash then p.gather b .path else p.fail .space1
  | .path =>
    if b = sp then
      { p with partialRequest.path := Path.clean p.token.toList, token := #[] }.proceed .space2
    else if isPathByte b then p.gather b .path
    else p.fail .path
  | .space2 => if b = 72 then p.gather b .version else p.fail .space2
  | .version =>
    if p.token.size = 8 ∧ b = cr then { p with token := #[] }.proceed .newLine
    else if version[p.token.size]? = some b then p.gather b .version
    else p.fail .version
  | .newLine => if b = lf then { p with lineLength := 0 }.proceed .headerKey else p.fail .newLine
  | .headerKey =>
    if b = cr ∧ p.token.isEmpty then p.proceed .endLine
    else if b = colon ∧ !p.token.isEmpty then
      { p with key := p.token.toList, token := #[] }.proceed .colon
    else if isKeyByte b then p.gather b .headerKey
    else p.fail .headerKey
  | .colon => if b = sp then p.proceed .space3 else p.fail .colon
  | .space3 => if isValueByte b then p.gather b .headerValue else p.fail .space3
  | .headerValue =>
    if b = cr then
      match p.partialRequest.setHeader? p.key p.token.toList with
      | none => p.fail .headerValue
      | some r => { p with partialRequest := r, token := #[], key := [] }.proceed .headerNewLine
    else if isValueByte b then p.gather b .headerValue
    else p.fail .headerValue
  | .headerNewLine =>
    if b = lf then { p with lineLength := 0 }.proceed .headerKey else p.fail .headerNewLine
  | .endLine =>
    if b = lf then
      let n := p.partialRequest.contentLength
      if p.limits.maxBody < n then p.reject (.bodyTooLarge n)
      else if n = 0 then p.finish
      else p.proceed .body
    else p.fail .endLine
  | .body =>
    let p := { p with body := p.body.push b }
    if p.body.size = p.partialRequest.contentLength then p.finish else p.proceed .body
  | .done => p.fail .body
  | .error => (.error (p.error?.getD (.atState .error)), p)

/-- Feeds one byte. In the head the byte counts towards the length of its line. -/
def feed (p : ByteParser) (b : UInt8) : Except ParseError Progress × ByteParser :=
  if p.state.inHead then
    let p := { p with lineLength := p.lineLength + 1 }
    if p.limits.lineCap < p.lineLength then p.fail p.overlongState else p.step b
  else p.step b

/-- Feeds bytes until the request is complete or rejected or the bytes run out; `n` bytes
were fed before. -/
def feedList (p : ByteParser) (n : Nat) :
    Bytes → Except ParseError (Progress × Nat) × ByteParser
  | [] => (.ok (.pending, n), p)
  | b :: l =>
    match p.feed b with
    | (.ok .pending, p') => p'.feedList (n + 1) l
    | (.ok .complete, p') => (.ok (.complete, n + 1), p')
    | (.error e, p') => (.error e, p')

/-- Feeds bytes until the request is complete or rejected or the bytes run out. The answer
holds the number of bytes fed; a parser whose request is complete takes none. -/
def feedSlice (p : ByteParser) (l : Bytes) : Except ParseError (Progress × Nat) × ByteParser :=
  if p.state = .done then (.ok (.complete, 0), p) else p.feedList 0 l

/-! ## With room for the body -/

/-- One byte at the place that has been reached. Where the head ends and a body within the limit
is to follow, room is made for it. -/
def step? (p : ByteParser) (b : UInt8) : Option (Except ParseError Progress × ByteParser) :=
  let n := p.partialRequest.contentLength
  if p.state = .endLine ∧ b = lf ∧ n ≤ p.limits.maxBody ∧ n ≠ 0 then
    (reserve? p.body.size n).map fun () => p.step b
  else some (p.step b)

/-- Feeds one byte. -/
def feed? (p : ByteParser) (b : UInt8) : Option (Except ParseError Progress × ByteParser) :=
  if p.state.inHead then
    let p := { p with lineLength := p.lineLength + 1 }
    if p.limits.lineCap < p.lineLength then some (p.fail p.overlongState) else p.step? b
  else p.step? b

/-- Feeds bytes until the request is complete or rejected or the bytes run out; `n` bytes
were fed before. -/
def feedList? (p : ByteParser) (n : Nat) :
    Bytes → Option (Except ParseError (Progress × Nat) × ByteParser)
  | [] => some (.ok (.pending, n), p)
  | b :: l =>
    match p.feed? b with
    | none => none
    | some (.ok .pending, p') => p'.feedList? (n + 1) l
    | some (.ok .complete, p') => some (.ok (.complete, n + 1), p')
    | some (.error e, p') => some (.error e, p')

/-- Feeds bytes until the request is complete or rejected or the bytes run out. -/
def feedSlice? (p : ByteParser) (l : Bytes) :
    Option (Except ParseError (Progress × Nat) × ByteParser) :=
  if p.state = .done then some (.ok (.complete, 0), p) else p.feedList? 0 l

/-! ## Ends and new starts -/

/-- What the end of the input means : a body of the wrong length inside the body, and a
failure to read anywhere else. -/
def endError (p : ByteParser) : ParseError := if p.state = .body then .bodyLength else .read

/-- Goes back to the start of a request. What was read of the request is kept. -/
def reset (p : ByteParser) : ByteParser :=
  { p with state := .start, token := #[], key := [], lineLength := 0, error? := none }

/-- Hands out the request and goes back to the start with an empty one. -/
def takeRequest (p : ByteParser) : Request × ByteParser :=
  (p.request, { p.reset with partialRequest := {}, body := #[] })

end ByteParser

end HttpServer
