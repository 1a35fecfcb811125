import HttpServer.Server

/-!
# Servers over time

A server can be started, stopped and started again while an earlier loop has not come to its
end yet. `Step` lets starts, stops and the loops do their next thing in any order. A loop
looks at the flag again and again; when it finds it lowered, or fails, it returns; when it has
returned it lowers the flag, and only then it has ended. A loop that fails at its work has
lowered the flag already.
-/

namespace HttpServer.Server

/-- How far a loop has come. -/
inductive LoopPhase where
  /-- It serves connections. -/
  | serving
  /-- It has returned and not yet lowered the flag. -/
  | returned (error? : Option ServerError)
  /-- It has ended. -/
  | ended (how : LoopEnd)
deriving DecidableEq, Repr

/-- The loop can still accept connections, or lower the flag. -/
def LoopPhase.isAlive : LoopPhase → Bool
  | ended _ => false
  | _ => true

/-- A server with all loops that it has started. -/
structure Timeline where
  /-- The server. -/
  server : Server
  /-- The loops, in the order of their starts. -/
  loops : List LoopPhase := []

namespace Timeline

/-- A start. -/
def start (t : Timeline) (l : Launch) : Timeline :=
  let r := t.server.launch l
  { server := r.server
    loops := if r.task = .running then t.loops ++ [.serving] else t.loops }

/-- A stop. -/
def stop (t : Timeline) : Timeline := { t with server := t.server.stop }

/-- The loop looks at the flag, and returns if it is lowered. -/
def look (t : Timeline) (i : Nat) : Timeline :=
  match t.loops[i]? with
  | some .serving =>
    if t.server.running then t else { t with loops := t.loops.set i (.returned none) }
  | _ => t

/-- The loop fails before it comes to its work. -/
def fails (t : Timeline) (i : Nat) (e : ServerError) : Timeline :=
  match t.loops[i]? with
  | some .serving => { t with loops := t.loops.set i (.returned (some e)) }
  | _ => t

/-- The loop fails at its work, and lowers the flag before it returns. -/
def givesUp (t : Timeline) (i : Nat) (e : ServerError) : Timeline :=
  match t.loops[i]? with
  | some .serving =>
    { server := t.server.stop, loops := t.loops.set i (.returned (some e)) }
  | _ => t

/-- The loop panics. -/
def panics (t : Timeline) (i : Nat) : Timeline :=
  match t.loops[i]? with
  | some .serving => { t with loops := t.loops.set i (.ended .panicked) }
  | _ => t

/-- A loop that has returned comes to its end. -/
def ends (t : Timeline) (i : Nat) : Timeline × List LogLine :=
  match t.loops[i]? with
  | some (.returned e?) =>
    let (server, log) := t.server.loopEnds (.returned e?)
    ({ server, loops := t.loops.set i (.ended (.returned e?)) }, log)
  | _ => (t, [])

/-- A stop and the end of the latest loop, if that still serves. -/
def stopAndWait (t : Timeline) : Timeline × List LogLine :=
  let i := t.loops.length - 1
  (t.stop.look i).ends i

/-- One thing happens. -/
inductive Step : Timeline → Timeline → Prop where
  | onConnection (t : Timeline) (callback : Callback) :
    Step t { t with server := t.server.onConnection callback }
  | start (t : Timeline) (l : Launch) : Step t (t.start l)
  | stop (t : Timeline) : Step t t.stop
  | look (t : Timeline) (i : Nat) : Step t (t.look i)
  | fails (t : Timeline) (i : Nat) (e : ServerError) : Step t (t.fails i e)
  | givesUp (t : Timeline) (i : Nat) (e : ServerError) : Step t (t.givesUp i e)
  | panics (t : Timeline) (i : Nat) : Step t (t.panics i)
  | ends (t : Timeline) (i : Nat) : Step t (t.ends i).1

/-- What can come of a server. -/
inductive Reachable (s : Server) : Timeline → Prop where
  | start : Reachable s { server := s }
  | step {t u : Timeline} : Reachable s t → Step t u → Reachable s u

end Timeline

end HttpServer.Server
