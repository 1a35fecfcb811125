import HttpServer.Dispatcher
import HttpServer.Server

/-!
# Hosts

A host is a server together with a dispatcher that answers its connections. It runs until its
loop ends by itself, the user interrupts it, or somebody asks it to shut down. Stopping only
ends the acceptance of connections; those that the workers have are still answered.
-/

namespace HttpServer

/-- A request to shut down, which anybody who holds it can make. -/
structure Shutdown where
  /-- It was made. -/
  triggered : Bool := false
deriving DecidableEq, Repr

namespace Shutdown

/-- Makes the request; making it again changes nothing. -/
def trigger (_ : Shutdown) : Shutdown := { triggered := true }

end Shutdown

/-- A dispatcher as what answers connections. -/
def Dispatcher.callback (d : Dispatcher) : Callback := fun c =>
  let s := d.dispatch c
  { stream := s.context.stream, log := s.log }

/-- A server with what answers its connections. -/
structure Host where
  /-- The server. -/
  server : Server
  /-- The request to shut down. -/
  shutdown : Shutdown := {}
  /-- An interrupt by the user stops the host. -/
  handlesInterrupt : Bool := true

/-- Why a host stops. -/
inductive StopCause where
  /-- The loop ended by itself. -/
  | loopEnded
  /-- The user interrupted it. -/
  | interrupt
  /-- It was asked to shut down. -/
  | shutdown
deriving DecidableEq, Repr

namespace Host

/-- The name under which a host forwards its log. -/
def component : String := "host"

/-- The dispatcher that a host starts from : it has the default pages and no routes. -/
def dispatcher : Dispatcher := (({} : Dispatcher).registerDefaults).dispatcher

/-- A host on a machine with the given number of processors. -/
def build (processors : Nat) (config : ServerConfig) (limits : Limits) (d : Dispatcher) : Host :=
  { server := (Server.ofConfig processors config limits).onConnection d.callback }

/-- What comes of a run. -/
structure Ran where
  /-- The error that ended it. -/
  error? : Option ServerError
  /-- The host afterwards. -/
  host : Host
  /-- What was said. -/
  log : List LogLine

/-- What is said when a host stops for a cause. -/
def stopLine : StopCause → List LogLine
  | .loopEnded => []
  | .interrupt => [{ level := .warn, message := "^C received, stopping" }]
  | .shutdown => [{ level := .info, message := "Shutdown requested, stopping" }]

/-- Runs a host until it stops for a cause and its loop comes to an end. `runtime` tells
whether the host can wait for several things at once. -/
def run (h : Host) (l : Launch) (runtime : Except IoError Unit) (cause : StopCause)
    (ended : LoopEnd) : Ran :=
  let r := h.server.launch l
  let log : List LogLine := { level := .info, message := "Starting web host" } :: r.log
  if r.task.isCompleted then
    { error? := r.task.join ended, host := { h with server := r.server }, log }
  else
    match runtime with
    | .error e =>
      let (server, rest) := r.server.stop.loopEnds ended
      { error? := some (.runtime e), host := { h with server }, log := log ++ rest }
    | .ok () =>
      let stopping := if cause = .loopEnded then r.server else r.server.stop
      let (server, rest) := stopping.loopEnds ended
      { error? := r.task.join ended
        host := { h with server }
        log := log ++ stopLine cause ++ rest
          ++ [{ level := .info, message := "Web host stopped" }] }

end Host

end HttpServer
