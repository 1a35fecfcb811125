import HttpServer.Reception
import HttpServer.Server.Accept

/-!
# The event loop

One thread keeps every connection whose request is still coming in, in a slot with the number
of its descriptor, and asks the system which of them can be read. A connection leaves its slot
when its request is complete or rejected; then it is handed to the workers, or closed if
there is nobody to answer or no room.

Readiness is told once for each change. So the listener is asked until it has no connection
left; if it fails before, no further change will be told for those that are left, and the
next turn asks again.

Every connection has a number, counted from its acceptance, and the loop keeps a record of
the connections that it handed on and of those that it closed.

The loop takes it for granted that there can be room for every body. Where there can be none, it
panics, and what becomes of the server then is up to `Timeline`.
-/

namespace HttpServer.Server

/-- A connection whose request is coming in. -/
structure Waiting where
  /-- The number of the connection. -/
  number : Nat
  /-- What has come in so far. -/
  reception : Reception

/-- The state of an event loop. -/
structure EventLoop where
  /-- The limits on a request. -/
  limits : Limits := {}
  /-- The slots, one for each descriptor. -/
  slots : List (Option Waiting) := List.replicate maxDescriptors none
  /-- The descriptors whose readiness is told. -/
  registered : List Nat := []
  /-- The listener failed before it had no connection left. -/
  acceptRetry : Bool := false
  /-- The number of connections accepted so far. -/
  accepted : Nat := 0
  /-- The connections handed to the workers. -/
  handed : List (Nat × Context) := []
  /-- The connections closed by the loop itself. -/
  closed : List (Nat × Stream) := []
  /-- What was said. -/
  log : List LogLine := []

/-- A change that the system tells, with what comes of following it up. -/
inductive Readiness where
  /-- The listener has connections, and answers so when it is asked. -/
  | listener (answers : List Acceptance)
  /-- A descriptor can be read; if a request is handed on for it, the workers have room or
  not. -/
  | descriptor (fd : Nat) (room : Bool)

/-- What the system answers when it is asked for changes. -/
inductive Poll where
  | ready (changes : List Readiness)
  | interrupted
  | failed (e : IoError)

namespace EventLoop

/-- The connection in a slot. -/
def slot? (l : EventLoop) (fd : Nat) : Option Waiting := l.slots[fd]?.join

/-- A connection leaves a slot, and its readiness is told no more. -/
def vacate (l : EventLoop) (fd : Nat) : EventLoop :=
  { l with slots := l.slots.set fd none, registered := l.registered.filter (· ≠ fd) }

/-- A connection is closed. -/
def shut (l : EventLoop) (number : Nat) (s : Stream) : EventLoop :=
  { l with closed := l.closed ++ [(number, s)] }

/-- Something is said. -/
def say (l : EventLoop) (line : LogLine) : EventLoop := { l with log := l.log ++ [line] }

/-- Empties a slot and closes its connection. -/
def clear (l : EventLoop) (fd : Nat) : EventLoop :=
  match l.slot? fd with
  | none => l
  | some w => (l.vacate fd).shut w.number w.reception.abort

/-! ## New connections -/

/-- Takes a connection in. One that stood in its slot before is closed. -/
def takeIn (l : EventLoop) (c : Incoming) : EventLoop :=
  let number := l.accepted
  let l := { l with accepted := number + 1 }
  if maxDescriptors ≤ c.descriptor then (l.shut number c.stream.abandon).say overwhelmed
  else
    match c.configure, c.register with
    | .error e, _ => (l.shut number c.stream.abandon).say (configureFailed e)
    | .ok (), .error e =>
      let r := Reception.ofStream l.limits c.stream (some c.peer)
      (l.shut number r.abort).say (registerFailed e)
    | .ok (), .ok () =>
      let w := { number, reception := Reception.ofStream l.limits c.stream (some c.peer) }
      let l := l.clear c.descriptor
      { l with
        slots := l.slots.set c.descriptor (some w)
        registered := l.registered ++ [c.descriptor] }

/-- Asks the listener until it has no connection left, or fails. -/
def ask (l : EventLoop) : List Acceptance → EventLoop
  | [] => l
  | .wouldBlock :: _ => l
  | .interrupted :: rest => l.ask rest
  | .failure e :: _ => { l with acceptRetry := true }.say (acceptFailed e)
  | .connection c :: rest => (l.takeIn c).ask rest

/-- Takes in all connections that the listener has. -/
def acceptAll (l : EventLoop) (answers : List Acceptance) : EventLoop :=
  { l with acceptRetry := false }.ask answers

/-! ## Connections that can be read -/

/-- Hands a connection to the workers, or closes it if they have no room. -/
def handOn (l : EventLoop) (number : Nat) (c : Context) (room : Bool) : EventLoop :=
  if room then { l with handed := l.handed ++ [(number, c)] }
  else (l.shut number c.close.stream).say overwhelmed

/-- Reads what has arrived on a descriptor. A connection that failed or ended before its head
was complete has nobody to answer. -/
def readable (l : EventLoop) (fd : Nat) (room : Bool) : EventLoop :=
  match l.slot? fd with
  | none => l
  | some w =>
    match w.reception.advance with
    | (.ok .pending, reception) =>
      { l with slots := l.slots.set fd (some { w with reception }) }
    | (.ok .complete, r) => (l.vacate fd).handOn w.number (r.finish none) room
    | (.error .read, r) => (l.vacate fd).shut w.number r.abort
    | (.error e, r) => (l.vacate fd).handOn w.number (r.finish (some e)) room

/-- Something arrives on a descriptor, or its peer ends or goes. -/
def arrive (l : EventLoop) (fd : Nat) (f : Stream → Stream) : EventLoop :=
  match l.slot? fd with
  | none => l
  | some w =>
    let w := { w with reception.reader.source := f w.reception.reader.source }
    { l with slots := l.slots.set fd (some w) }

/-! ## Turns -/

/-- Follows a change up. -/
def follow (l : EventLoop) : Readiness → EventLoop
  | .listener answers => l.acceptAll answers
  | .descriptor fd room => l.readable fd room

/-- Asks the system for changes once and follows them all up. If the listener failed before,
it is asked first, and `again` is what it answers. -/
def turn (l : EventLoop) (again : List Acceptance) : Poll → Except IoError EventLoop
  | .interrupted => .ok l
  | .failed e => .error e
  | .ready changes =>
    .ok (changes.foldl follow (if l.acceptRetry then l.acceptAll again else l))

/-- Empties all slots. -/
def clearAll (l : EventLoop) : EventLoop := (List.range l.slots.length).foldl clear l

/-- Takes turns as long as the loop is to go on, and then empties all slots. -/
def run (l : EventLoop) : List (List Acceptance × Poll) → LoopEnd × EventLoop
  | [] => (.returned none, l.clearAll)
  | (again, p) :: rest =>
    match l.turn again p with
    | .ok l' => l'.run rest
    | .error e => (.returned (some (.poll e)), l.clearAll)

end EventLoop

end HttpServer.Server
