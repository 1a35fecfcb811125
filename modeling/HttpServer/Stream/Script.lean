import HttpServer.Stream.Source
import HttpServer.Stream.Sink

/-!
# Streams that follow a script

A script lists what a source or a sink does, call by call, and so describes every way in
which bytes can arrive or be taken : in pieces of any size, with empty reads and failures
anywhere between them. After the last entry a source has ended and a sink takes everything.
-/

namespace HttpServer

/-- What a source does at one call. -/
inductive Arrival where
  /-- Gives these bytes, or as many of them as fit and the rest at the next call. -/
  | chunk (data : Bytes)
  /-- Fails. -/
  | failure (kind : IoKind)
deriving DecidableEq, Repr

/-- A source that follows a script. -/
structure ScriptSource where
  /-- What the coming calls do. -/
  arrivals : List Arrival
  /-- Once closed, the source fails at every call. -/
  closed : Bool := false
deriving DecidableEq, Repr

namespace ScriptSource

/-- One read from a list of arrivals. -/
def readList : List Arrival → Nat → Except IoError Bytes × List Arrival
  | [], _ => (.ok [], [])
  | .failure k :: rest, _ => (.error { kind := k }, rest)
  | .chunk d :: rest, n =>
    if d.length ≤ n then (.ok d, rest) else (.ok (d.take n), .chunk (d.drop n) :: rest)

/-- One read. -/
def read (s : ScriptSource) (n : Nat) : Except IoError Bytes × ScriptSource :=
  if s.closed then (.error { kind := .notConnected }, s)
  else ((readList s.arrivals n).1, { s with arrivals := (readList s.arrivals n).2 })

/-- The number of bytes and entries in a list of arrivals. -/
def weight : List Arrival → Nat
  | [] => 0
  | .chunk d :: rest => d.length + 1 + weight rest
  | .failure _ :: rest => 1 + weight rest

theorem readList_length_le {a : List Arrival} {n : Nat} {l : Bytes}
    (h : (readList a n).1 = .ok l) : l.length ≤ n := by
  match a with
  | [] => cases h; simp
  | .failure _ :: _ => simp [readList] at h
  | .chunk d :: rest =>
    simp only [readList] at h
    split at h
    · cases h; assumption
    · cases h; exact List.length_take_le n d

theorem weight_readList_ok {a : List Arrival} {n : Nat} {l : Bytes}
    (h : (readList a n).1 = .ok l) : weight (readList a n).2 + l.length ≤ weight a := by
  match a with
  | [] => cases h; simp [readList, weight]
  | .failure _ :: _ => simp [readList] at h
  | .chunk d :: rest =>
    simp only [readList] at h ⊢
    split at h
    · cases h; simp only [*, if_true, weight]; omega
    · cases h; simp only [*, if_false, weight, List.length_take, List.length_drop]; omega

theorem weight_readList_error {a : List Arrival} {n : Nat} {e : IoError}
    (h : (readList a n).1 = .error e) : weight (readList a n).2 < weight a := by
  match a with
  | [] => simp [readList] at h
  | .failure _ :: _ => simp [readList, weight]
  | .chunk d :: rest => simp only [readList] at h; split at h <;> simp at h

instance : Source ScriptSource where
  read := read
  remaining s := weight s.arrivals
  length_le {s s' n l} h := by
    unfold read at h
    split at h
    · simp at h
    · exact readList_length_le (congrArg Prod.fst h)
  remaining_ok {s s' n l} h := by
    unfold read at h
    split at h
    · simp at h
    · obtain ⟨h1, rfl⟩ := Prod.mk.inj h
      exact weight_readList_ok h1
  remaining_error {s s' n e} h := by
    unfold read at h
    split at h
    · obtain ⟨-, rfl⟩ := Prod.mk.inj h; exact Nat.le_refl _
    · obtain ⟨h1, rfl⟩ := Prod.mk.inj h
      exact Nat.le_of_lt (weight_readList_error h1)
  remaining_interrupted {s s' n e} h hk := by
    unfold read at h
    split at h
    · obtain ⟨h1, -⟩ := Prod.mk.inj h
      cases h1; simp at hk
    · obtain ⟨h1, rfl⟩ := Prod.mk.inj h
      exact weight_readList_error h1

end ScriptSource

/-- What a sink does at one write. -/
inductive Intake where
  /-- Takes at most this many bytes. -/
  | take (n : Nat)
  /-- Fails. -/
  | failure (kind : IoKind)
deriving DecidableEq, Repr

/-- A sink that follows a script. -/
structure ScriptSink where
  /-- What the coming writes do. -/
  intakes : List Intake := []
  /-- The failures of the coming flushes, `none` for one that succeeds. -/
  flushFailures : List (Option IoKind) := []
  /-- The bytes taken so far. -/
  accepted : Bytes := []
  /-- How often the sink was flushed. -/
  flushes : Nat := 0
  /-- Once closed, the sink fails at every write. -/
  closed : Bool := false
deriving DecidableEq, Repr

namespace ScriptSink

/-- One write. -/
def write (s : ScriptSink) (l : Bytes) : Except IoError Nat × ScriptSink :=
  if s.closed then (.error { kind := .notConnected }, s)
  else
    match s.intakes with
    | [] => (.ok l.length, { s with accepted := s.accepted ++ l })
    | .take n :: rest =>
      (.ok (min n l.length), { s with intakes := rest, accepted := s.accepted ++ l.take n })
    | .failure k :: rest => (.error { kind := k }, { s with intakes := rest })

/-- One flush. -/
def flush (s : ScriptSink) : Except IoError Unit × ScriptSink :=
  match s.flushFailures with
  | some k :: rest =>
    (.error { kind := k }, { s with flushFailures := rest, flushes := s.flushes + 1 })
  | none :: rest => (.ok (), { s with flushFailures := rest, flushes := s.flushes + 1 })
  | [] => (.ok (), { s with flushes := s.flushes + 1 })

instance : Sink ScriptSink where
  write := write
  flush := flush
  accepted := accepted
  patience s := s.intakes.length
  write_le {s s' l n} h := by
    unfold write at h
    split at h
    · simp at h
    · split at h
      · cases h; exact Nat.le_refl _
      · cases h; exact Nat.min_le_right _ _
      · simp at h
  accepted_ok {s s' l n} h := by
    unfold write at h
    split at h
    · simp at h
    · split at h
      · cases h; simp
      · cases h; simp [List.take_eq_take_iff]
      · simp at h
  accepted_error {s s' l e} h := by
    unfold write at h
    split at h
    · cases h; rfl
    · split at h <;> cases h
      rfl
  accepted_flush {s s' r} h := by
    unfold flush at h
    split at h <;> cases h <;> rfl
  patience_interrupted {s s' l e} h hk := by
    unfold write at h
    split at h
    · cases h; simp at hk
    · split at h
      · simp at h
      · simp at h
      · rename_i hi
        cases h
        simp [hi]

end ScriptSink

end HttpServer
