import HttpServer.Host

/-!
# A ping and an echo

`ping` answers with a word, `echo` with the text of the body as a JSON document. Both say to
the listeners of the program what they were asked. On the command line the program takes the
name of an engine and a port.
-/

namespace HttpServer.Demo.PingEcho

/-- Says what a handler was asked. -/
def announce (name : String) : Handling Unit := do
  let request ← Handling.request
  let text := request.display
  Handling.info s!"{name} request received:\n-----\n{text}\n-----"

/-- Answers with a word. -/
def ping : Handler := do
  announce "Ping"
  Handling.respond fun r => r.withText "pong"
  return .ok

/-- Answers with the text of the body. -/
def echo : Handler := do
  announce "Echo"
  let request ← Handling.request
  let reply := Json.ofMembers [("status", .string "ok"), ("message", .string request.text)]
  Handling.respond? fun r => r.withJson? (some reply)
  return .ok

/-- The routes of the program. -/
def routes : List Route := [⟨utf8 "/ping", .get, ping⟩, ⟨utf8 "/echo", .post, echo⟩]

/-! ## Command line -/

/-- A port as it is written on the command line : a plus sign or none, and digits. -/
def port? (s : String) : Option Nat :=
  let digits := match utf8 s with
    | b :: l => if b = 43 then l else b :: l
    | [] => []
  match Decimal.read? digits with
  | some n => if n < 65536 then some n else none
  | none => none

/-- The engine and the port that the arguments name, with the usual ones for those that they
leave out. -/
def config (args : List String) : Except ServerError ServerConfig := do
  let kind ← match args[0]? with
    | some name => ServerKind.ofName name
    | none => .ok .mayhem
  return { kind, port := (args[1]?.bind port?).getD 5000 }

/-- What a run of the program writes. -/
structure Output where
  /-- The lines of the log. -/
  lines : List String := []
  /-- The error that it ended with. -/
  error? : Option ServerError := none

/-- Runs the program on a machine with the given number of processors, where the system
answers a launch with `l`, until somebody stops it. -/
def run (processors : Nat) (args : List String) (filter : Filter) (l : Launch) : Output :=
  match config args with
  | .error e => { error? := some e }
  | .ok config =>
    let d := Host.dispatcher.registerAll routes
    let r := (Host.build processors config {} d.dispatcher).run l (.ok ()) .shutdown
      (.returned none)
    let log := (d.log ++ r.log).filter fun line => filter.passes line.level
    { lines := ((Logger.forwarding Host.component).events log).map Event.text
      error? := r.error? }

end HttpServer.Demo.PingEcho
