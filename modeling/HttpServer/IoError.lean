/-!
# Failures of streams

A failed read or write has a kind, which the library acts on, and a text, which it only
passes on to logs and messages.
-/

namespace HttpServer

/-- Why an operation on a stream or a socket failed. -/
inductive IoKind where
  | notConnected
  /-- Nothing to read or no room to write at the moment. -/
  | wouldBlock
  /-- The operation was cut short and can be repeated at once. -/
  | interrupted
  | brokenPipe
  | connectionReset
  | unexpectedEof
  | invalidData
  | writeZero
  | timedOut
  | permissionDenied
  | addrInUse
  | other
deriving DecidableEq, Repr, Inhabited

/-- The usual text of a kind of failure. -/
def IoKind.text : IoKind → String
  | notConnected => "not connected"
  | wouldBlock => "operation would block"
  | interrupted => "operation interrupted"
  | brokenPipe => "broken pipe"
  | connectionReset => "connection reset"
  | unexpectedEof => "unexpected end of file"
  | invalidData => "invalid data"
  | writeZero => "write zero"
  | timedOut => "timed out"
  | permissionDenied => "permission denied"
  | addrInUse => "address in use"
  | other => "other error"

/-- A failed operation on a stream or a socket. -/
structure IoError where
  /-- The kind of the failure. -/
  kind : IoKind
  /-- What a log says about it. -/
  text : String := kind.text
deriving DecidableEq, Repr, Inhabited

end HttpServer
