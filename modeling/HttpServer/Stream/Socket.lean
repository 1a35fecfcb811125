import HttpServer.Address
import HttpServer.Stream.Source
import HttpServer.Stream.Sink

/-!
# Sockets

One end of a connection, together with what the other end has sent and seen. A read gives at
least one byte if any has arrived, but it may give fewer than asked for, or be interrupted :
`pacing` lists what the coming reads do.

A socket that is closed while input lies unread resets the connection, and what was written
before may then never reach the peer. So `close` first ends its own side and throws away
what has already arrived, up to `discardLimit` bytes and the read that reaches it.
-/

namespace HttpServer

/-- What the system does at one read from a socket. -/
inductive Pace where
  /-- Interrupts it. -/
  | interrupt
  /-- Gives at most one byte more than this number. -/
  | short (n : Nat)
deriving DecidableEq, Repr

/-- How a connection ended for the peer. -/
inductive Ending where
  /-- All that was written, and then the end. -/
  | eof
  /-- A reset. -/
  | reset
deriving DecidableEq, Repr

/-- One end of a connection. -/
structure Socket where
  /-- The bytes that have arrived and were not read. -/
  incoming : Bytes := []
  /-- The peer sends no more. -/
  peerEnded : Bool := false
  /-- The peer has closed its end. -/
  peerGone : Bool := false
  /-- The bytes that the peer got. -/
  received : Bytes := []
  /-- What the peer saw of the end of the connection. -/
  ending? : Option Ending := none
  /-- This end was closed. -/
  closed : Bool := false
  /-- The address of the peer, where ends have one. -/
  peer? : Option Address := none
  /-- What the coming reads do; after the last entry, all that fits is given. -/
  pacing : List Pace := []
deriving DecidableEq, Repr

namespace Socket

/-- One read. -/
def read (s : Socket) (n : Nat) : Except IoError Bytes × Socket :=
  if s.closed then (.error { kind := .notConnected }, s)
  else
    match s.pacing with
    | .interrupt :: rest => (.error { kind := .interrupted }, { s with pacing := rest })
    | pacing =>
      if s.incoming = [] then
        if s.peerEnded ∨ s.peerGone then (.ok [], s) else (.error { kind := .wouldBlock }, s)
      else
        let m := match pacing with
          | .short k :: _ => min n (k + 1)
          | _ => n
        (.ok (s.incoming.take m), { s with incoming := s.incoming.drop m, pacing := pacing.tail })

/-- One write. -/
def write (s : Socket) (l : Bytes) : Except IoError Nat × Socket :=
  if s.closed then (.error { kind := .notConnected }, s)
  else if s.peerGone then
    (.error { kind := .brokenPipe, text := "Broken pipe (os error 32)" }, s)
  else (.ok l.length, { s with received := s.received ++ l })

/-- One flush. -/
def flush (s : Socket) : Except IoError Unit × Socket :=
  (if s.closed then .error { kind := .notConnected } else .ok (), s)

instance : Source Socket where
  read := read
  remaining s := s.incoming.length + s.pacing.length
  length_le {s s' n l} h := by
    unfold read at h
    repeat' split at h
    all_goals cases h
    · exact Nat.zero_le n
    · exact Nat.le_trans (List.length_take_le ..) (Nat.min_le_left ..)
    · exact List.length_take_le ..
  remaining_ok {s s' n l} h := by
    unfold read at h
    repeat' split at h
    all_goals cases h
    all_goals simp
    all_goals omega
  remaining_error {s s' n e} h := by
    unfold read at h
    repeat' split at h
    all_goals cases h
    all_goals simp [*]
  remaining_interrupted {s s' n e} h hk := by
    unfold read at h
    repeat' split at h
    all_goals cases h
    all_goals first
      | (cases hk; done)
      | simp [*]

instance : Sink Socket where
  write := write
  flush := flush
  accepted := received
  patience _ := 0
  write_le {s s' l n} h := by
    unfold write at h
    repeat' split at h
    all_goals cases h
    exact Nat.le_refl _
  accepted_ok {s s' l n} h := by
    unfold write at h
    repeat' split at h
    all_goals cases h
    simp
  accepted_error {s s' l e} h := by
    unfold write at h
    repeat' split at h
    all_goals cases h
    all_goals rfl
  accepted_flush {s s' r} h := by
    cases h; rfl
  patience_interrupted {s s' l e} h hk := by
    unfold write at h
    repeat' split at h
    all_goals cases h
    all_goals cases hk

/-- How many unread bytes are thrown away at most before the last read. -/
def discardLimit : Nat := 64 * 1024

/-- How many bytes one read throws away at most. -/
def discardChunk : Nat := 4096

/-- Throws away what has arrived, when `discarded` bytes are gone already. -/
def discardUnread (s : Socket) (discarded : Nat) : Socket :=
  if _hd : discarded < discardLimit then
    match _h : Source.read s discardChunk with
    | (.ok [], s') => s'
    | (.ok (_ :: l), s') => discardUnread s' (discarded + (l.length + 1))
    | (.error e, s') => if _hk : e.kind = .interrupted then discardUnread s' discarded else s'
  else s
termination_by (discardLimit - discarded, Source.remaining s)
decreasing_by
  · simp [Prod.lex_def]; omega
  · have := Source.remaining_interrupted _h _hk
    simp [Prod.lex_def]; omega

/-- Gives this end up at once. Input that is left unread resets the connection. -/
def abandon (s : Socket) : Socket :=
  if s.closed then s
  else
    { s with
      closed := true
      incoming := []
      ending? :=
        if s.peerGone then s.ending? else some (if s.incoming = [] then .eof else .reset) }

/-- Closes this end, after what has arrived is thrown away. -/
def close (s : Socket) : Socket := if s.closed then s else (s.discardUnread 0).abandon

/-- The address of the peer, as long as this end is open. -/
def peerAddress? (s : Socket) : Option Address := if s.closed then none else s.peer?

/-! ## The other end -/

/-- The peer sends bytes. -/
def peerSend (s : Socket) (l : Bytes) : Except IoError Unit × Socket :=
  if l = [] then (.ok (), s)
  else if s.closed ∨ s.peerEnded ∨ s.peerGone then
    (.error { kind := .brokenPipe, text := "Broken pipe (os error 32)" }, s)
  else (.ok (), { s with incoming := s.incoming ++ l })

/-- The peer will send no more. -/
def peerEnd (s : Socket) : Socket := { s with peerEnded := true }

/-- The peer closes its end. -/
def peerHangUp (s : Socket) : Socket := { s with peerGone := true }

end Socket

end HttpServer
