import HttpServer.Stream.Memory
import HttpServer.Stream.Script
import HttpServer.Stream.Socket

/-!
# Streams

What a connection reads from and writes to : a socket, a stream in memory, or one that
follows a script. A stream can be closed any number of times; only the first time has an
effect on the connection.
-/

namespace HttpServer

/-- A stream of a connection. -/
inductive Stream where
  | memory (m : MemoryStream)
  /-- A stream that follows one script for reading and one for writing. -/
  | script (source : ScriptSource) (sink : ScriptSink) (closeCalls : Nat)
  | socket (s : Socket)
deriving DecidableEq, Repr

namespace Stream

/-- One read. -/
def read (s : Stream) (n : Nat) : Except IoError Bytes × Stream :=
  match s with
  | memory m => ((Source.read m n).1, memory (Source.read m n).2)
  | script a b c => ((Source.read a n).1, script (Source.read a n).2 b c)
  | socket t => ((Source.read t n).1, socket (Source.read t n).2)

/-- A bound on the bytes and interruptions to come. -/
def remaining : Stream → Nat
  | memory m => Source.remaining m
  | script a _ _ => Source.remaining a
  | socket t => Source.remaining t

/-- One write. -/
def write (s : Stream) (l : Bytes) : Except IoError Nat × Stream :=
  match s with
  | memory m => ((Sink.write m l).1, memory (Sink.write m l).2)
  | script a b c => ((Sink.write b l).1, script a (Sink.write b l).2 c)
  | socket t => ((Sink.write t l).1, socket (Sink.write t l).2)

/-- One flush. -/
def flush (s : Stream) : Except IoError Unit × Stream :=
  match s with
  | memory m => ((Sink.flush m).1, memory (Sink.flush m).2)
  | script a b c => ((Sink.flush b).1, script a (Sink.flush b).2 c)
  | socket t => ((Sink.flush t).1, socket (Sink.flush t).2)

/-- The bytes written so far. -/
def output : Stream → Bytes
  | memory m => Sink.accepted m
  | script _ b _ => Sink.accepted b
  | socket t => Sink.accepted t

/-- A bound on the interruptions of writes to come. -/
def patience : Stream → Nat
  | memory m => Sink.patience m
  | script _ b _ => Sink.patience b
  | socket t => Sink.patience t

/-- The stream was closed. -/
def isClosed : Stream → Bool
  | memory m => m.closed
  | script a _ _ => a.closed
  | socket t => t.closed

/-- Closes the stream. -/
def close : Stream → Stream
  | memory m => memory m.close
  | script a b c => script { a with closed := true } { b with closed := true } (c + 1)
  | socket t => socket t.close

/-- Gives the stream up at once, without a care for what has arrived. -/
def abandon : Stream → Stream
  | socket t => socket t.abandon
  | s => s.close

/-- The stream stands on a descriptor that readiness can be asked of. -/
def hasDescriptor : Stream → Bool
  | socket t => !t.closed
  | _ => false

/-- Asks the stream to wait, or not to wait, for input. -/
def setNonblocking : Stream → Except IoError Unit
  | socket t => if t.closed then .error { kind := .notConnected } else .ok ()
  | _ => .ok ()

theorem read_eq {s s' : Stream} {n : Nat} {r : Except IoError Bytes} (h : read s n = (r, s')) :
    (∃ m m', s = memory m ∧ s' = memory m' ∧ Source.read m n = (r, m')) ∨
    (∃ a a' b c, s = script a b c ∧ s' = script a' b c ∧ Source.read a n = (r, a')) ∨
    ∃ t t', s = socket t ∧ s' = socket t' ∧ Source.read t n = (r, t') := by
  cases s <;> cases h
  · exact .inl ⟨_, _, rfl, rfl, rfl⟩
  · exact .inr (.inl ⟨_, _, _, _, rfl, rfl, rfl⟩)
  · exact .inr (.inr ⟨_, _, rfl, rfl, rfl⟩)

theorem write_eq {s s' : Stream} {l : Bytes} {r : Except IoError Nat} (h : write s l = (r, s')) :
    (∃ m m', s = memory m ∧ s' = memory m' ∧ Sink.write m l = (r, m')) ∨
    (∃ a b b' c, s = script a b c ∧ s' = script a b' c ∧ Sink.write b l = (r, b')) ∨
    ∃ t t', s = socket t ∧ s' = socket t' ∧ Sink.write t l = (r, t') := by
  cases s <;> cases h
  · exact .inl ⟨_, _, rfl, rfl, rfl⟩
  · exact .inr (.inl ⟨_, _, _, _, rfl, rfl, rfl⟩)
  · exact .inr (.inr ⟨_, _, rfl, rfl, rfl⟩)

instance : Source Stream where
  read := read
  remaining := remaining
  length_le h := by
    rcases read_eq h with ⟨_, _, rfl, rfl, hr⟩ | ⟨_, _, _, _, rfl, rfl, hr⟩ | ⟨_, _, rfl, rfl, hr⟩
    all_goals exact Source.length_le hr
  remaining_ok h := by
    rcases read_eq h with ⟨_, _, rfl, rfl, hr⟩ | ⟨_, _, _, _, rfl, rfl, hr⟩ | ⟨_, _, rfl, rfl, hr⟩
    all_goals exact Source.remaining_ok hr
  remaining_error h := by
    rcases read_eq h with ⟨_, _, rfl, rfl, hr⟩ | ⟨_, _, _, _, rfl, rfl, hr⟩ | ⟨_, _, rfl, rfl, hr⟩
    all_goals exact Source.remaining_error hr
  remaining_interrupted h hk := by
    rcases read_eq h with ⟨_, _, rfl, rfl, hr⟩ | ⟨_, _, _, _, rfl, rfl, hr⟩ | ⟨_, _, rfl, rfl, hr⟩
    all_goals exact Source.remaining_interrupted hr hk

instance : Sink Stream where
  write := write
  flush := flush
  accepted := output
  patience := patience
  write_le h := by
    rcases write_eq h with ⟨_, _, rfl, rfl, hr⟩ | ⟨_, _, _, _, rfl, rfl, hr⟩ | ⟨_, _, rfl, rfl, hr⟩
    all_goals exact Sink.write_le hr
  accepted_ok h := by
    rcases write_eq h with ⟨_, _, rfl, rfl, hr⟩ | ⟨_, _, _, _, rfl, rfl, hr⟩ | ⟨_, _, rfl, rfl, hr⟩
    all_goals exact Sink.accepted_ok hr
  accepted_error h := by
    rcases write_eq h with ⟨_, _, rfl, rfl, hr⟩ | ⟨_, _, _, _, rfl, rfl, hr⟩ | ⟨_, _, rfl, rfl, hr⟩
    all_goals exact Sink.accepted_error hr
  accepted_flush {s s' r} h := by
    cases s <;> cases h
    · exact Sink.accepted_flush (σ := MemoryStream) rfl
    · exact Sink.accepted_flush (σ := ScriptSink) rfl
    · exact Sink.accepted_flush (σ := Socket) rfl
  patience_interrupted h hk := by
    rcases write_eq h with ⟨_, _, rfl, rfl, hr⟩ | ⟨_, _, _, _, rfl, rfl, hr⟩ | ⟨_, _, rfl, rfl, hr⟩
    all_goals exact Sink.patience_interrupted hr hk

end Stream

end HttpServer
