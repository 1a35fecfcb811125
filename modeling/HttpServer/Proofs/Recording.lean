import HttpServer.Stream.Reader

/-!
# What a source was asked for

A reader asks its source for bytes in its own way : it reads ahead, repeats what was interrupted
and leaves out its buffer where a long stretch is wanted. `Recorded` is a source that keeps a
record of the reads from it, with the space that each was offered and what came of it. A reader
in front of it does not see the record (`Reader.answerEach_unrecorded`), so whatever the record
tells is true of readers in front of any source.

What a repeated read or a stretch brings is what goes on record meanwhile
(`Recorded.delivered_fetch`, `Recorded.delivered_readExact`).
-/

namespace HttpServer

variable {σ : Type}

/-! ## Sources with a record -/

/-- A read from a source. -/
structure SourceRead where
  /-- The size of the space that was offered. -/
  space : Nat
  /-- What came of it. -/
  outcome : Except IoError Bytes

/-- The bytes that a read brought. -/
def SourceRead.bytes (x : SourceRead) : Bytes :=
  match x.outcome with
  | .ok l => l
  | .error _ => []

/-- A source with a record of the reads from it. -/
structure Recorded (σ : Type) where
  /-- The source. -/
  source : σ
  /-- The reads from it, in their order. -/
  reads : List SourceRead := []

namespace Recorded

/-- All bytes that the source has given so far. -/
def delivered (s : Recorded σ) : Bytes := s.reads.flatMap SourceRead.bytes

/-- Every read was offered some space. -/
def Offered (s : Recorded σ) : Prop := ∀ x ∈ s.reads, 0 < x.space

variable [Source σ]

/-- One read, which goes on record. -/
def read (s : Recorded σ) (n : Nat) : Except IoError Bytes × Recorded σ :=
  let x := Source.read s.source n
  (x.1, { source := x.2, reads := s.reads ++ [{ space := n, outcome := x.1 }] })

theorem read_eq {s s' : Recorded σ} {n : Nat} {x : Except IoError Bytes}
    (h : s.read n = (x, s')) : Source.read s.source n = (x, s'.source) ∧
      s'.reads = s.reads ++ [{ space := n, outcome := x }] := by
  obtain ⟨rfl, rfl⟩ := Prod.mk.inj h
  exact ⟨rfl, rfl⟩

instance : Source (Recorded σ) where
  read := read
  remaining s := Source.remaining s.source
  length_le h := Source.length_le (read_eq h).1
  remaining_ok h := Source.remaining_ok (read_eq h).1
  remaining_error h := Source.remaining_error (read_eq h).1
  remaining_interrupted h hk := Source.remaining_interrupted (read_eq h).1 hk

variable {s s' : Recorded σ} {n : Nat}

theorem delivered_read {x : Except IoError Bytes} (h : Source.read s n = (x, s')) :
    s'.delivered = s.delivered ++ (SourceRead.mk n x).bytes := by
  rw [delivered, (read_eq h).2, List.flatMap_append, List.flatMap_singleton]
  rfl

/-- What is read again and again while it is interrupted is given by the last read. -/
theorem delivered_fetch {x : Except IoError Bytes} (h : Source.fetch s n = (x, s')) :
    s'.delivered = s.delivered ++ (SourceRead.mk n x).bytes := by
  fun_induction Source.fetch s n with
  | case1 s l s'' hr =>
    cases h
    exact delivered_read hr
  | case2 s e s'' hr hk ih =>
    rw [ih h, delivered_read hr]
    simp [SourceRead.bytes]
  | case3 s e s'' hr hk =>
    cases h
    exact delivered_read hr

/-- A stretch that is read is all that the source gives meanwhile. -/
theorem delivered_readExact {l : Bytes} (h : Source.readExact s n = (.ok l, s')) :
    s'.delivered = s.delivered ++ l := by
  fun_induction Source.readExact s n generalizing l s' with
  | case1 s =>
    cases h
    simp
  | case2 => simp at h
  | case3 => simp at h
  | case4 s n hn b x s'' hf y s3 hr ih =>
    cases h
    rw [ih hr, delivered_fetch hf]
    simp [SourceRead.bytes]
  | case5 => simp at h

theorem offered_read {x : Except IoError Bytes} (hs : s.Offered) (hn : 0 < n)
    (h : Source.read s n = (x, s')) : s'.Offered := by
  intro y hy
  rw [(read_eq h).2, List.mem_append, List.mem_singleton] at hy
  rcases hy with hy | rfl
  · exact hs y hy
  · exact hn

theorem offered_fetch {x : Except IoError Bytes} (hs : s.Offered) (hn : 0 < n)
    (h : Source.fetch s n = (x, s')) : s'.Offered := by
  fun_induction Source.fetch s n with
  | case1 s l s'' hr =>
    cases h
    exact offered_read hs hn hr
  | case2 s e s'' hr hk ih => exact ih (offered_read hs hn hr) h
  | case3 s e s'' hr hk =>
    cases h
    exact offered_read hs hn hr

/-- A stretch is read into the space that is still free, and no more once it is full. -/
theorem offered_readExact {x : Except IoError Bytes} (hs : s.Offered)
    (h : Source.readExact s n = (x, s')) : s'.Offered := by
  fun_induction Source.readExact s n generalizing x s' with
  | case1 s =>
    cases h
    exact hs
  | case2 s n hn e s'' hf =>
    cases h
    exact offered_fetch hs (Nat.pos_of_ne_zero hn) hf
  | case3 s n hn s'' hf =>
    cases h
    exact offered_fetch hs (Nat.pos_of_ne_zero hn) hf
  | case4 s n hn b l s'' hf l' s3 hr ih =>
    cases h
    exact ih (offered_fetch hs (Nat.pos_of_ne_zero hn) hf) hr
  | case5 s n hn b l s'' hf e s3 hr ih =>
    cases h
    exact ih (offered_fetch hs (Nat.pos_of_ne_zero hn) hf) hr

/-! ## The record does not show -/

theorem fetch_source (s : Recorded σ) (n : Nat) :
    Source.fetch s.source n = ((Source.fetch s n).1, (Source.fetch s n).2.source) := by
  fun_induction Source.fetch s n with
  | case1 s l s' hr =>
    have hread := (read_eq hr).1
    rw [Source.fetch]
    split <;> simp_all
  | case2 s e s' hr hk ih =>
    have hread := (read_eq hr).1
    rw [Source.fetch]
    split <;> simp_all
  | case3 s e s' hr hk =>
    have hread := (read_eq hr).1
    rw [Source.fetch]
    split <;> simp_all

theorem readExact_source (s : Recorded σ) (n : Nat) :
    Source.readExact s.source n =
      ((Source.readExact s n).1, (Source.readExact s n).2.source) := by
  fun_induction Source.readExact s n with
  | case1 s => simp [Source.readExact]
  | case2 s n hn e s' hf =>
    have hfetch := fetch_source s n
    rw [hf] at hfetch
    rw [Source.readExact, if_neg hn, hfetch]
  | case3 s n hn s' hf =>
    have hfetch := fetch_source s n
    rw [hf] at hfetch
    rw [Source.readExact, if_neg hn, hfetch]
  | case4 s n hn b l s' hf l' s'' hr ih =>
    have hfetch := fetch_source s n
    rw [hf] at hfetch
    rw [hr] at ih
    rw [Source.readExact, if_neg hn, hfetch]
    simp only [ih]
  | case5 s n hn b l s' hf e s'' hr ih =>
    have hfetch := fetch_source s n
    rw [hf] at hfetch
    rw [hr] at ih
    rw [Source.readExact, if_neg hn, hfetch]
    simp only [ih]

end Recorded

/-! ## Calls -/

namespace Reader

/-- What a reader can be asked for. -/
inductive Call where
  /-- The next byte. -/
  | byte
  /-- The next line, of at most `max` bytes. -/
  | line (max : Nat)
  /-- A stretch of `n` bytes. -/
  | exact (n : Nat)
deriving DecidableEq, Repr

/-- The answer to a call. -/
inductive Answer where
  | byte (x : ByteRead)
  | line (x : Except IoError (Option Bytes))
  | exact (x : Except (IoError × Bytes) Bytes)

/-- The bytes that an answer hands out. -/
def Answer.handed : Answer → Bytes
  | byte (.byte b) => [b]
  | line (.ok (some l)) => l
  | exact (.ok l) => l
  | exact (.error (_, l)) => l
  | _ => []

/-- A stretch was not handed out whole. -/
def Answer.isCut : Answer → Bool
  | exact (.error _) => true
  | _ => false

variable [Source σ]

/-- One call. -/
def answer (r : Reader σ) : Call → Answer × Reader σ
  | .byte => (.byte r.readByte.1, r.readByte.2)
  | .line max => (.line (r.readLine max).1, (r.readLine max).2)
  | .exact n => (.exact (r.readExact n).1, (r.readExact n).2)

/-- Calls, one after the other. -/
def answerEach (r : Reader σ) : List Call → List Answer × Reader σ
  | [] => ([], r)
  | c :: cs =>
    ((r.answer c).1 :: ((r.answer c).2.answerEach cs).1, ((r.answer c).2.answerEach cs).2)

/-! ## The record does not show in the answers -/

/-- The reader in front of the source itself. -/
def unrecorded (r : Reader (Recorded σ)) : Reader σ :=
  { source := r.source.source, window := r.window, head := r.head, size := r.size }

omit [Source σ] in
theorem makeRoom_unrecorded (r : Reader (Recorded σ)) :
    r.unrecorded.makeRoom = r.makeRoom.unrecorded := by
  unfold makeRoom
  repeat' split
  all_goals simp_all [unrecorded, tail]

theorem fill_unrecorded (r : Reader (Recorded σ)) :
    r.unrecorded.fill = (r.fill.1, r.fill.2.unrecorded) := by
  have hfetch : Source.fetch r.makeRoom.unrecorded.source r.makeRoom.unrecorded.room = _ :=
    Recorded.fetch_source r.makeRoom.source r.makeRoom.room
  unfold fill
  rw [makeRoom_unrecorded, hfetch]
  rcases Source.fetch r.makeRoom.source r.makeRoom.room with ⟨_ | _, s⟩ <;> rfl

theorem readByte_unrecorded (r : Reader (Recorded σ)) :
    r.unrecorded.readByte = (r.readByte.1, r.readByte.2.unrecorded) := by
  have hwindow : r.unrecorded.window = r.window := rfl
  unfold readByte
  rw [fill_unrecorded, hwindow]
  rcases r.window with _ | ⟨b, l⟩
  · rcases r.fill with ⟨_ | _ | _, r'⟩ <;> rfl
  · rfl

theorem scanLine_unrecorded (r : Reader (Recorded σ)) (max scanned : Nat) :
    r.unrecorded.scanLine max scanned =
      ((r.scanLine max scanned).1, (r.scanLine max scanned).2.unrecorded) := by
  have hwindow (r : Reader (Recorded σ)) : r.unrecorded.window = r.window := rfl
  fun_induction scanLine r max scanned with
  | case1 r scanned pre post hs line hlong =>
    rw [scanLine_eq, hwindow, hs]
    exact if_pos hlong
  | case2 r scanned pre post hs line hshort =>
    rw [scanLine_eq, hwindow, hs]
    exact if_neg hshort
  | case3 r scanned hs hlong =>
    rw [scanLine_eq, hwindow, hs]
    exact if_pos hlong
  | case4 r scanned hs hshort e r' hf =>
    rw [scanLine_eq, hwindow, hs, fill_unrecorded, hf]
    exact if_neg hshort
  | case5 r scanned hs hshort r' hf hw =>
    rw [scanLine_eq, hwindow, hs, fill_unrecorded, hf]
    exact (if_neg hshort).trans (if_pos hw)
  | case6 r scanned hs hshort r' hf hw =>
    rw [scanLine_eq, hwindow, hs, fill_unrecorded, hf]
    exact (if_neg hshort).trans (if_neg hw)
  | case7 r scanned hs hshort b x r' hf ih =>
    rw [scanLine_eq, hwindow, hs, fill_unrecorded, hf]
    exact (if_neg hshort).trans ih

theorem readExact_unrecorded (r : Reader (Recorded σ)) (n : Nat) :
    r.unrecorded.readExact n = ((r.readExact n).1, (r.readExact n).2.unrecorded) := by
  have hwindow : r.unrecorded.window = r.window := rfl
  rcases Nat.lt_or_ge r.window.length n with h | h
  · have hread : Source.readExact r.unrecorded.source (n - r.window.length) = _ :=
      Recorded.readExact_source r.source (n - r.window.length)
    rw [readExact_of_short h, readExact_of_short (hwindow ▸ h), hwindow, hread]
    rcases Source.readExact r.source (n - r.window.length) with ⟨_ | _, s⟩ <;> rfl
  · rw [readExact_of_buffered h, readExact_of_buffered (hwindow ▸ h)]
    rfl

theorem answer_unrecorded (r : Reader (Recorded σ)) (c : Call) :
    r.unrecorded.answer c = ((r.answer c).1, (r.answer c).2.unrecorded) := by
  cases c with
  | byte => simp only [answer, readByte_unrecorded]
  | line max => simp only [answer, readLine, scanLine_unrecorded]
  | exact n => simp only [answer, readExact_unrecorded]

/-- A reader answers in front of the source as it does in front of the source with its record. -/
theorem answerEach_unrecorded (r : Reader (Recorded σ)) (cs : List Call) :
    r.unrecorded.answerEach cs = ((r.answerEach cs).1, (r.answerEach cs).2.unrecorded) := by
  induction cs generalizing r with
  | nil => rfl
  | cons c cs ih => simp only [answerEach, answer_unrecorded, ih]

end Reader

end HttpServer
