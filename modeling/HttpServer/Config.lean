import HttpServer.IoError
import HttpServer.Word

/-!
# Configuration

Which engine serves connections, how many workers it has and how many tasks may wait for
each, and the limits on the size of a request. `ServerConfig.normalized` settles what the
user left open; its capacity is always a power of two.
-/

namespace HttpServer

/-- The engine that serves connections. -/
inductive ServerKind where
  /-- One thread accepts, parses and answers every connection in turn. -/
  | basic
  /-- One thread accepts, and a pool of workers parses and answers. -/
  | threaded
  /-- One thread waits for readiness and parses, and a pool of workers answers. -/
  | mayhem
deriving DecidableEq, Repr, Inhabited

/-- The name of an engine in messages and in the `Server` header. -/
def ServerKind.name : ServerKind → String
  | basic => "Basic"
  | threaded => "Threaded"
  | mayhem => "Mayhem"

/-- Why a server does not run. -/
inductive ServerError where
  /-- The port cannot be listened on. -/
  | bind (port : Nat) (source : IoError)
  /-- The system gave no readiness poller. -/
  | poll (source : IoError)
  | alreadyRunning
  /-- Nothing was registered to answer connections. -/
  | noCallback
  /-- No engine has this name. -/
  | unknownKind (name : String)
  /-- The host could not start what it runs on. -/
  | runtime (source : IoError)
deriving DecidableEq, Repr, Inhabited

/-- The wording of a server error. -/
def ServerError.message : ServerError → String
  | bind port source => s!"failed to listen on port {port}: {source.text}"
  | poll source => s!"failed to create event poller: {source.text}"
  | alreadyRunning => "server is already running"
  | noCallback => "connection callback is not set"
  | unknownKind name => s!"unknown server kind `{name}`"
  | runtime source => s!"failed to start host runtime: {source.text}"

/-- The engine with the given name, in any case of its letters. -/
def ServerKind.ofName (s : String) : Except ServerError ServerKind :=
  match s.map Char.toLower with
  | "basic" => .ok basic
  | "threaded" => .ok threaded
  | "mayhem" => .ok mayhem
  | _ => .error (.unknownKind s)

/-- What a server is built from. -/
structure ServerConfig where
  /-- The engine. -/
  kind : ServerKind := .basic
  /-- The port to listen on; zero lets the system choose. -/
  port : Nat := 5000
  /-- The number of workers; zero asks for one per processor. -/
  threads : Nat := 0
  /-- How many tasks may wait for each worker. -/
  capacity : Nat := 1024
deriving DecidableEq, Repr

/-- The configuration with nothing left open, on a machine with the given number of
processors. -/
def ServerConfig.normalized (processors : Nat) (c : ServerConfig) : ServerConfig :=
  { c with
    threads := if c.threads = 0 then max processors 1 else c.threads
    capacity := if c.capacity = 0 then 1024 else powerOfTwo c.capacity }

/-- The limits on the size of a request. -/
structure Limits where
  /-- The largest body, in bytes. -/
  maxBody : Nat := 4096
  /-- The longest line of the head, not counting its line end. -/
  maxLine : Nat := 8192
deriving DecidableEq, Repr

/-- The longest line of the head with its line end. -/
def Limits.lineCap (l : Limits) : Nat := saturatingAdd l.maxLine 2

theorem Limits.lineCap_eq (l : Limits) : l.lineCap = min (l.maxLine + 2) wordMax := rfl

/-- The number of descriptors that the readiness engine keeps a place for. -/
def maxDescriptors : Nat := 1024

end HttpServer
