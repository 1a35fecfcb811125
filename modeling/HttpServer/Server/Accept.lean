import HttpServer.Server

/-!
# Accepting connections

A loop asks its listener for connections again and again; an `Acceptance` is one answer. An
`Incoming` is a connection that has come in, with what the system says when the loop prepares
it.
-/

namespace HttpServer.Server

/-- A connection that has come in. -/
structure Incoming where
  /-- Its descriptor. -/
  descriptor : Nat
  /-- Its stream. -/
  stream : Stream
  /-- Where it comes from. -/
  peer : Address
  /-- Its way of waiting can be set. -/
  configure : Except IoError Unit := .ok ()
  /-- Readiness can be asked of it. -/
  register : Except IoError Unit := .ok ()

/-- What a listener answers. -/
inductive Acceptance where
  | connection (c : Incoming)
  /-- There is no connection at the moment. -/
  | wouldBlock
  | interrupted
  | failure (e : IoError)

/-! ## What is said -/

/-- There is no room for a connection. -/
def overwhelmed : LogLine :=
  { level := .warn, message := "Server overwhelmed, new connection refused" }

/-- The listener failed. -/
def acceptFailed (e : IoError) : LogLine :=
  { level := .warn, message := s!"Failed to accept connection: {e.text}" }

/-- The way of waiting of a connection could not be set. -/
def configureFailed (e : IoError) : LogLine :=
  { level := .warn, message := s!"Failed to configure connection: {e.text}" }

/-- Readiness could not be asked of a connection. -/
def registerFailed (e : IoError) : LogLine :=
  { level := .warn, message := s!"Failed to register connection: {e.text}" }

end HttpServer.Server
