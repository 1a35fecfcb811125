import HttpServer.Config
import HttpServer.Context
import HttpServer.Log

/-!
# Servers

A server listens on a port and hands every connection to a callback, as a context that is
ready to be answered. `launch` settles all that can go wrong before its loop runs and then
starts the loop; `stop` only lowers a flag, which the loop looks at from time to time.

What the system says to each thing that a launch asks of it is a `Launch`, and how a loop
came to its end is a `LoopEnd`.
-/

namespace HttpServer

/-- What is left of an exchange that was answered. -/
structure Served where
  /-- The stream. -/
  stream : Stream
  /-- What was said. -/
  log : List LogLine := []
deriving DecidableEq

/-- What answers a connection. -/
abbrev Callback := Context → Served

/-- How a loop came to its end. -/
inductive LoopEnd where
  /-- It returned, with an error if it failed. -/
  | returned (error? : Option ServerError)
  /-- It panicked. -/
  | panicked
deriving DecidableEq, Repr

/-- The loop of a server, as the one who started it sees it. -/
inductive ServerTask where
  /-- It has started. -/
  | running
  /-- It has ended before it started. -/
  | completed (error? : Option ServerError)
deriving DecidableEq, Repr

namespace ServerTask

/-- The loop has ended before it started. -/
def isCompleted : ServerTask → Bool
  | running => false
  | completed _ => true

/-- Why the loop did not start. -/
def error? : ServerTask → Option ServerError
  | running => none
  | completed e? => e?

/-- The error that waiting for the loop gives, when it comes to the given end. Of a loop that
panicked nothing is heard, and that counts as success. -/
def join (t : ServerTask) (ended : LoopEnd) : Option ServerError :=
  match t with
  | completed e? => e?
  | running =>
    match ended with
    | .returned e? => e?
    | .panicked => none

end ServerTask

/-- A server. -/
structure Server where
  /-- The engine. -/
  kind : ServerKind
  /-- The configuration, with nothing left open. -/
  config : ServerConfig
  /-- The limits on a request. -/
  limits : Limits := {}
  /-- What answers connections. -/
  callback? : Option Callback := none
  /-- The address that was listened on last. -/
  address? : Option Address := none
  /-- The loop is to go on. -/
  running : Bool := false

/-- What the system says to a launch. -/
structure Launch where
  /-- Listening on a port gives the port that is listened on. -/
  listen : Nat → Except IoError Nat
  /-- What the engine needs besides can be made. -/
  prepare : Except ServerError Unit := .ok ()
  /-- A thread for the loop can be made. -/
  spawn : Except IoError Unit := .ok ()

namespace Server

/-- A server on a machine with the given number of processors. -/
def ofConfig (processors : Nat) (config : ServerConfig) (limits : Limits) : Server :=
  { kind := config.kind, config := config.normalized processors, limits }

/-- Sets what answers connections. -/
def onConnection (s : Server) (callback : Callback) : Server :=
  { s with callback? := some callback }

/-- The address of a port on all interfaces. -/
def anyAddress (port : Nat) : Address := { ip := .v4 0 0 0 0, port, scope := 0 }

/-- What comes of a launch. -/
structure Launched where
  /-- The loop. -/
  task : ServerTask
  /-- The server afterwards. -/
  server : Server
  /-- What was said. -/
  log : List LogLine

/-- A launch that failed. -/
def failed (s : Server) (e : ServerError) (level : Level) (message : String) : Launched :=
  { task := .completed (some e), server := s, log := [{ level, message }] }

/-- Starts the loop of a server. -/
def launch (s : Server) (l : Launch) : Launched :=
  if s.running then s.failed .alreadyRunning .warn "Server is already running"
  else if s.callback?.isNone then
    s.failed .noCallback .error "OnConnection callback is not set"
  else
    match l.listen s.config.port with
    | .error source =>
      let e := ServerError.bind s.config.port source
      s.failed e .error s!"Failed to listen on port {s.config.port}: {source.text}"
    | .ok port =>
      let s := { s with address? := some (anyAddress port) }
      let kind := s.kind.name
      match l.prepare with
      | .error e => s.failed e .error s!"{kind} server failed to start: {e.message}"
      | .ok () =>
        let started : LogLine :=
          { level := .info, message := s!"Starting {kind} server on port {port}" }
        match l.spawn with
        | .ok () => { task := .running, server := { s with running := true }, log := [started] }
        | .error source =>
          let lost : LogLine :=
            { level := .error
              message := s!"Failed to spawn {kind} server thread: {source.text}" }
          { task := .completed (some (.poll source)), server := s, log := [started, lost] }

/-- Asks the loop to stop. -/
def stop (s : Server) : Server := { s with running := false }

/-- What is said when a loop has returned. -/
def farewell (kind : ServerKind) (error? : Option ServerError) : List LogLine :=
  let name := kind.name
  let reason : List LogLine := match error? with
    | none => []
    | some e => [{ level := .error, message := s!"{name} server stopped: {e.message}" }]
  reason ++ [{ level := .info, message := s!"{name} server shut down" }]

/-- What a loop leaves behind. One that returns lowers the flag; one that panics does
nothing more. -/
def loopEnds (s : Server) : LoopEnd → Server × List LogLine
  | .returned e? => (s.stop, farewell s.kind e?)
  | .panicked => (s, [])

end Server

end HttpServer
