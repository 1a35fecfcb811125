import HttpServer.Stream.Source
import HttpServer.Stream.Sink

/-!
# Streams in memory

A stream whose input is given beforehand, or bit by bit, and whose output is kept. While its
input is not finished, an empty input means that more may come.
-/

namespace HttpServer

/-- A stream in memory. -/
structure MemoryStream where
  /-- The bytes to be read. -/
  input : Bytes := []
  /-- The bytes written. -/
  output : Bytes := []
  /-- No more input will come. -/
  finished : Bool := false
  /-- Once closed, the stream fails at every read and write. -/
  closed : Bool := false
  /-- How often the stream was closed. -/
  closeCalls : Nat := 0
deriving DecidableEq, Repr

namespace MemoryStream

/-- A stream with all its input. -/
def ofInput (input : Bytes) : MemoryStream := { input, finished := true }

/-- A stream with the input that has come so far. -/
def pending (input : Bytes) : MemoryStream := { input }

/-- More input comes. -/
def push (m : MemoryStream) (l : Bytes) : MemoryStream := { m with input := m.input ++ l }

/-- The input is complete. -/
def finish (m : MemoryStream) : MemoryStream := { m with finished := true }

/-- Closes the stream. -/
def close (m : MemoryStream) : MemoryStream :=
  { m with closed := true, closeCalls := m.closeCalls + 1 }

/-- One read. -/
def read (m : MemoryStream) (n : Nat) : Except IoError Bytes × MemoryStream :=
  if m.closed then (.error { kind := .notConnected }, m)
  else if m.input = [] then
    if m.finished then (.ok [], m) else (.error { kind := .wouldBlock }, m)
  else (.ok (m.input.take n), { m with input := m.input.drop n })

/-- One write. -/
def write (m : MemoryStream) (l : Bytes) : Except IoError Nat × MemoryStream :=
  if m.closed then (.error { kind := .notConnected }, m)
  else (.ok l.length, { m with output := m.output ++ l })

instance : Source MemoryStream where
  read := read
  remaining m := m.input.length
  length_le {s s' n l} h := by
    unfold read at h
    repeat' split at h
    all_goals cases h
    · exact Nat.zero_le n
    · exact List.length_take_le n s.input
  remaining_ok {s s' n l} h := by
    unfold read at h
    repeat' split at h
    all_goals cases h
    all_goals simp
    omega
  remaining_error {s s' n e} h := by
    unfold read at h
    repeat' split at h
    all_goals cases h
    all_goals exact Nat.le_refl _
  remaining_interrupted {s s' n e} h hk := by
    unfold read at h
    repeat' split at h
    all_goals cases h
    all_goals cases hk

instance : Sink MemoryStream where
  write := write
  flush m := (.ok (), m)
  accepted := output
  patience _ := 0
  write_le {s s' l n} h := by
    unfold write at h
    split at h <;> cases h
    exact Nat.le_refl _
  accepted_ok {s s' l n} h := by
    unfold write at h
    split at h <;> cases h
    simp
  accepted_error {s s' l e} h := by
    unfold write at h
    split at h <;> cases h
    rfl
  accepted_flush {s s' r} h := by
    cases h; rfl
  patience_interrupted {s s' l e} h hk := by
    unfold write at h
    split at h <;> cases h
    cases hk

end MemoryStream

end HttpServer
