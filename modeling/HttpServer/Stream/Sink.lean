import HttpServer.Bytes
import HttpServer.IoError

/-!
# Where bytes go

A sink accepts the front part of what is written to it, or fails. `accepted` is everything
it has taken so far : a write that takes `n` bytes appends exactly the first `n`, and a
failed one appends nothing. Interruptions run out, so `Sink.writeAll`, which writes on until
all is taken, comes to an end.
-/

namespace HttpServer

/-- A type of values that bytes can be written to. -/
class Sink (σ : Type) where
  /-- One write; the answer is the number of bytes taken. -/
  write : σ → Bytes → Except IoError Nat × σ
  /-- Hands on what the sink itself holds back. -/
  flush : σ → Except IoError Unit × σ
  /-- The bytes taken so far. -/
  accepted : σ → Bytes
  /-- A bound on the interruptions to come. -/
  patience : σ → Nat
  /-- A write takes no more than it is given. -/
  write_le {s s' : σ} {l : Bytes} {n : Nat} : write s l = (.ok n, s') → n ≤ l.length
  /-- A write takes the front part. -/
  accepted_ok {s s' : σ} {l : Bytes} {n : Nat} :
    write s l = (.ok n, s') → accepted s' = accepted s ++ l.take n
  /-- A failed write takes nothing. -/
  accepted_error {s s' : σ} {l : Bytes} {e : IoError} :
    write s l = (.error e, s') → accepted s' = accepted s
  /-- A flush takes nothing new. -/
  accepted_flush {s s' : σ} {r : Except IoError Unit} :
    flush s = (r, s') → accepted s' = accepted s
  /-- Interruptions run out. -/
  patience_interrupted {s s' : σ} {l : Bytes} {e : IoError} :
    write s l = (.error e, s') → e.kind = .interrupted → patience s' < patience s

namespace Sink

variable {σ : Type} [Sink σ]

/-- Writes on until everything is taken. A write that is interrupted is repeated; one that
takes nothing is a failure. -/
def writeAll (s : σ) (l : Bytes) : Except IoError Unit × σ :=
  if l = [] then (.ok (), s)
  else
    match _h : write s l with
    | (.ok n, s') =>
      if n = 0 then
        (.error { kind := .writeZero, text := "failed to write whole buffer" }, s')
      else writeAll s' (l.drop n)
    | (.error e, s') =>
      if _hk : e.kind = .interrupted then writeAll s' l else (.error e, s')
termination_by (l.length, patience s)
decreasing_by
  · rename_i hl hn
    have : 0 < l.length := List.length_pos_iff.2 hl
    simp [Prod.lex_def]; omega
  · have := patience_interrupted _h _hk
    simp [Prod.lex_def]; omega

/-- Writes one stretch after the other, up to the first failure. -/
def writeEach (s : σ) : List Bytes → Except IoError Unit × σ
  | [] => (.ok (), s)
  | l :: ls =>
    match writeAll s l with
    | (.ok (), s') => writeEach s' ls
    | (.error e, s') => (.error e, s')

end Sink

end HttpServer
