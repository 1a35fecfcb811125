/-!
# Where and why parsing fails

`ParseState` names the place in a request that a parser has reached, and `ParseError` the
reasons for which a request is rejected. Both parsers of the library report the same
errors, with a stable negative code for each kind.
-/

namespace HttpServer

/-- The place in a request that has been reached. -/
inductive ParseState where
  | start
  | method
  | space1
  | path
  | space2
  | version
  | newLine
  | headerKey
  | colon
  | space3
  | headerValue
  | headerNewLine
  | endLine
  | body
  /-- The request is complete. -/
  | done
  /-- The request was rejected. -/
  | error
deriving DecidableEq, Repr, Inhabited

namespace ParseState

/-- The name of a place in messages. -/
def name : ParseState → String
  | start => "Start"
  | method => "Method"
  | space1 => "Space1"
  | path => "Path"
  | space2 => "Space2"
  | version => "Version"
  | newLine => "NewLine"
  | headerKey => "HeaderKey"
  | colon => "Colon"
  | space3 => "Space3"
  | headerValue => "HeaderValue"
  | headerNewLine => "HeaderNewLine"
  | endLine => "EndLine"
  | body => "Body"
  | done => "Done"
  | error => "Error"

/-- All places, in the order in which a request passes through them. -/
def all : List ParseState :=
  [start, method, space1, path, space2, version, newLine, headerKey, colon, space3, headerValue,
    headerNewLine, endLine, body, done, error]

/-- The place with a name. -/
def ofName? (s : String) : Option ParseState := all.find? fun p => p.name = s

@[simp] theorem ofName?_name (p : ParseState) : ofName? p.name = some p := by
  cases p <;> rfl

/-- The places of the start line. -/
def inStartLine : ParseState → Bool
  | start | method | space1 | path | space2 | version | newLine => true
  | _ => false

/-- The places before the body, where lines are read. -/
def inHead : ParseState → Bool
  | body | done | error => false
  | _ => true

end ParseState

/-- Why a request is rejected. -/
inductive ParseError where
  /-- The stream failed or ended before the head was complete. -/
  | read
  /-- The start line is malformed at the given place. -/
  | startLine (state : ParseState)
  /-- A header line is malformed at the given place. -/
  | header (state : ParseState)
  /-- The declared length of the body exceeds the limit. -/
  | bodyTooLarge (declared : Nat)
  /-- The body is shorter or longer than declared. -/
  | bodyLength
deriving DecidableEq, Repr, Inhabited

namespace ParseError

/-- A stable number for each kind of error. -/
def code : ParseError → Int
  | read => -1
  | startLine _ => -2
  | header _ => -3
  | bodyTooLarge _ => -4
  | bodyLength => -5

/-- The place at which the input was rejected, where it is known. -/
def state? : ParseError → Option ParseState
  | startLine s | header s => some s
  | bodyLength => some .body
  | read | bodyTooLarge _ => none

/-- The error for malformed input at a place. -/
def atState (s : ParseState) : ParseError :=
  if s.inStartLine then startLine s else if s = .body then bodyLength else header s

/-- The wording of an error. -/
def message : ParseError → String
  | read => "failed to read from stream"
  | startLine s => s!"failed to parse start line (state {s.name})"
  | header s => s!"failed to parse header (state {s.name})"
  | bodyTooLarge n => s!"body too large: {n} bytes declared"
  | bodyLength => "body does not match declared Content-Length"

theorem code_atState_startLine {s : ParseState} (h : s.inStartLine = true) :
    (atState s).code = -2 := by
  rw [atState, if_pos h]
  rfl

end ParseError

end HttpServer
