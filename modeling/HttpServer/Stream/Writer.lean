import HttpServer.Stream.Sink

/-!
# Buffered writing

A `Writer` gathers small writes and hands them to its sink together. Nothing reaches the
sink before the buffer would overflow or the writer is flushed; a write as large as the
whole buffer goes to the sink directly, after what was gathered before it.
-/

namespace HttpServer

/-- A sink with a buffer in front of it. -/
structure Writer (σ : Type) where
  /-- Where the bytes go. -/
  sink : σ
  /-- The bytes gathered and not yet handed to the sink. -/
  buffer : Bytes := []
  /-- The size of the buffer. -/
  capacity : Nat := 4096

namespace Writer

variable {σ : Type}

/-- A writer with a buffer of the given size. -/
def withCapacity (capacity : Nat) (s : σ) : Writer σ := { sink := s, capacity }

/-- A writer with a buffer of the usual size. -/
def ofSink (s : σ) : Writer σ := withCapacity 4096 s

/-- The number of bytes gathered. -/
def buffered (w : Writer σ) : Nat := w.buffer.length

variable [Sink σ]

/-- Hands the gathered bytes to the sink. If the sink fails they are all kept. -/
def flushBuffer (w : Writer σ) : Except IoError Unit × Writer σ :=
  match Sink.writeAll w.sink w.buffer with
  | (.ok (), s) => (.ok (), { w with sink := s, buffer := [] })
  | (.error e, s) => (.error e, { w with sink := s })

/-- Takes all of `l`, or fails before any of it is gathered. -/
def write (w : Writer σ) (l : Bytes) : Except IoError Unit × Writer σ :=
  let (r, w') := if w.capacity < w.buffer.length + l.length then w.flushBuffer else (.ok (), w)
  match r with
  | .error e => (.error e, w')
  | .ok () =>
    if w'.capacity ≤ l.length then
      match Sink.writeAll w'.sink l with
      | (.ok (), s) => (.ok (), { w' with sink := s })
      | (.error e, s) => (.error e, { w' with sink := s })
    else (.ok (), { w' with buffer := w'.buffer ++ l })

/-- Hands the gathered bytes to the sink and flushes it. -/
def flush (w : Writer σ) : Except IoError Unit × Writer σ :=
  match w.flushBuffer with
  | (.error e, w') => (.error e, w')
  | (.ok (), w') =>
    match Sink.flush w'.sink with
    | (r, s) => (r, { w' with sink := s })

/-- Writes one piece after the other, up to the first failure. -/
def writeEach (w : Writer σ) : List Bytes → Except IoError Unit × Writer σ
  | [] => (.ok (), w)
  | l :: ls =>
    match w.write l with
    | (.ok (), w') => w'.writeEach ls
    | (.error e, w') => (.error e, w')

end Writer

end HttpServer
