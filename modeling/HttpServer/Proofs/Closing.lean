import HttpServer.Proofs.Sending

/-!
# Streams that are closed

A stream of a connection changes by writes and flushes, which a sender repeats and mixes as it
likes, and by being closed. So what is known of it after a while is what each of these keeps
(`Sink.IsKept`, `Response.kept_send`).

Closing a stream does not touch what was written (`Stream.output_close`). Of a stream that takes
what is written to it while it is open (`Stream.WritesWhileOpen`), nothing is lost before it is
closed (`Stream.isReliable_of_open`), and nothing reaches it afterwards
(`Stream.isKept_closed`).
-/

namespace HttpServer

/-! ## What writing keeps -/

/-- What holds of a sink still holds after a write and after a flush, whatever comes of them. -/
structure Sink.IsKept {σ : Type} [Sink σ] (I : σ → Prop) : Prop where
  write {s s' : σ} {l : Bytes} {r : Except IoError Nat} : I s → l ≠ [] → write s l = (r, s') →
    I s'
  flush {s s' : σ} {r : Except IoError Unit} : I s → flush s = (r, s') → I s'

section Kept

variable {σ : Type} [Sink σ] {I : σ → Prop} {s : σ} {w : Writer σ} (hI : Sink.IsKept I)
include hI

theorem Sink.kept_writeAll (h : I s) (l : Bytes) : I (writeAll s l).2 := by
  fun_induction writeAll s l with
  | case1 s => exact h
  | case2 s l hl s' hw => exact hI.write h hl hw
  | case3 s l hl n s' hw hn ih => exact ih (hI.write h hl hw)
  | case4 s l hl e s' hw hk ih => exact ih (hI.write h hl hw)
  | case5 s l hl e s' hw hk => exact hI.write h hl hw

theorem Writer.kept_flushBuffer (h : I w.sink) : I w.flushBuffer.2.sink := by
  have hs := Sink.kept_writeAll hI h w.buffer
  unfold flushBuffer
  split <;> simp_all

theorem Writer.kept_place (h : I w.sink) (l : Bytes) : I (w.place l).2.sink := by
  unfold place
  split
  · exact Sink.kept_writeAll hI h l
  · exact h

theorem Writer.kept_write (h : I w.sink) (l : Bytes) : I (w.write l).2.sink := by
  have hs := kept_flushBuffer hI h
  rw [write_eq]
  split
  · rename_i hf
    split at hf
    · rw [hf] at hs
      exact kept_place hI hs l
    · cases hf
      exact kept_place hI h l
  · rename_i hf
    split at hf
    · rwa [hf] at hs
    · cases hf

theorem Writer.kept_writeEach (h : I w.sink) (ls : List Bytes) : I (w.writeEach ls).2.sink := by
  induction ls generalizing w with
  | nil => exact h
  | cons l ls ih =>
    have hs := kept_write hI h l
    unfold writeEach
    split
    all_goals
      rename_i hw
      rw [hw] at hs
    · exact ih hs
    · exact hs

theorem Writer.kept_flush (h : I w.sink) : I w.flush.2.sink := by
  have hs := kept_flushBuffer hI h
  unfold flush
  split
  all_goals
    rename_i hf
    rw [hf] at hs
  · exact hs
  · exact hI.flush hs rfl

theorem Response.kept_send (r : Response) (h : I w.sink) : I (r.send w).2.sink := by
  have hs := Writer.kept_writeEach hI h r.pieces
  unfold send
  split
  all_goals
    rename_i hw
    rw [hw] at hs
  · exact Writer.kept_flush hI hs
  · exact hs

end Kept

/-! ## Closing a stream -/

namespace Socket

theorem received_read {s s' : Socket} {n : Nat} {x : Except IoError Bytes}
    (h : s.read n = (x, s')) : s'.received = s.received := by
  unfold read at h
  repeat' split at h
  all_goals
    cases h
    rfl

theorem received_discardUnread (s : Socket) (n : Nat) :
    (s.discardUnread n).received = s.received := by
  fun_induction discardUnread s n with
  | case1 s n hn s' hr => exact received_read hr
  | case2 s n hn b l s' hr ih => exact ih.trans (received_read hr)
  | case3 s n hn e s' hr hk ih => exact ih.trans (received_read hr)
  | case4 s n hn e s' hr hk => exact received_read hr
  | case5 s n hn => rfl

theorem received_abandon (s : Socket) : s.abandon.received = s.received := by
  unfold abandon
  split <;> rfl

theorem closed_abandon (s : Socket) : s.abandon.closed = true := by
  unfold abandon
  split
  · assumption
  · rfl

theorem received_close (s : Socket) : s.close.received = s.received := by
  unfold close
  split
  · rfl
  · rw [received_abandon, received_discardUnread]

theorem closed_close (s : Socket) : s.close.closed = true := by
  unfold close
  split
  · assumption
  · exact closed_abandon _

end Socket

theorem MemoryStream.isReliable_of_open :
    Sink.IsReliable fun m : MemoryStream => m.closed = false where
  ok {s s' l n} h hl hw := by
    change s.write l = _ at hw
    rw [write, if_neg (by simp [h])] at hw
    cases hw
    exact ⟨List.length_pos_iff.2 hl, h⟩
  error {s s' l e} h hw := by
    change s.write l = _ at hw
    rw [write, if_neg (by simp [h])] at hw
    cases hw
  flush {s s' r} h hw := by
    cases hw
    exact ⟨rfl, h⟩

theorem Socket.isReliable_of_open :
    Sink.IsReliable fun t : Socket => t.closed = false ∧ t.peerGone = false where
  ok {s s' l n} h hl hw := by
    change s.write l = _ at hw
    rw [write, if_neg (by simp [h.1]), if_neg (by simp [h.2])] at hw
    cases hw
    exact ⟨List.length_pos_iff.2 hl, h⟩
  error {s s' l e} h hw := by
    change s.write l = _ at hw
    rw [write, if_neg (by simp [h.1]), if_neg (by simp [h.2])] at hw
    cases hw
  flush {s s' r} h hw := by
    cases hw
    exact ⟨if_neg (by simp [h.1]), h⟩

namespace Stream

variable {s s' : Stream} {l : Bytes}

/-- What was written stays written when the stream is closed. -/
theorem output_close (s : Stream) : s.close.output = s.output := by
  cases s with
  | memory m => rfl
  | script a b c => rfl
  | socket t => exact t.received_close

theorem isClosed_close (s : Stream) : s.close.isClosed = true := by
  cases s with
  | memory m => rfl
  | script a b c => rfl
  | socket t => exact t.closed_close

/-- Writes and flushes succeed while the stream is open. A stream that follows scripts is open on
both sides or closed on both. -/
def WritesWhileOpen : Stream → Prop
  | memory _ => True
  | script a b _ => a.closed = b.closed ∧ (b.closed = false → b.NeverFails)
  | socket t => t.closed = false → t.peerGone = false

theorem WritesWhileOpen.close (h : s.WritesWhileOpen) : s.close.WritesWhileOpen := by
  cases s with
  | memory m => trivial
  | script a b c => exact ⟨rfl, fun h0 => by cases h0⟩
  | socket t =>
    intro h0
    rw [t.closed_close] at h0
    cases h0

/-- While it is open, such a stream takes what is written to it. -/
theorem isReliable_of_open :
    Sink.IsReliable fun s : Stream => s.WritesWhileOpen ∧ s.isClosed = false where
  ok {s s' l n} h hl hw := by
    obtain ⟨h, hc⟩ := h
    rcases write_eq hw with ⟨m, m', rfl, rfl, hm⟩ | ⟨a, b, b', c, rfl, rfl, hb⟩ |
      ⟨t, t', rfl, rfl, ht⟩
    · obtain ⟨hpos, hm'⟩ := MemoryStream.isReliable_of_open.ok hc hl hm
      exact ⟨hpos, trivial, hm'⟩
    · obtain ⟨hpos, hb'⟩ := ScriptSink.isReliable.ok (h.2 (h.1 ▸ hc)) hl hb
      exact ⟨hpos, ⟨hc.trans hb'.1.symm, fun _ => hb'⟩, hc⟩
    · obtain ⟨hpos, hc', ht'⟩ := Socket.isReliable_of_open.ok ⟨hc, h hc⟩ hl ht
      exact ⟨hpos, fun _ => ht', hc'⟩
  error {s s' l e} h hw := by
    obtain ⟨h, hc⟩ := h
    rcases write_eq hw with ⟨m, m', rfl, rfl, hm⟩ | ⟨a, b, b', c, rfl, rfl, hb⟩ |
      ⟨t, t', rfl, rfl, ht⟩
    · obtain ⟨hk, hm'⟩ := MemoryStream.isReliable_of_open.error hc hm
      exact ⟨hk, trivial, hm'⟩
    · obtain ⟨hk, hb'⟩ := ScriptSink.isReliable.error (h.2 (h.1 ▸ hc)) hb
      exact ⟨hk, ⟨hc.trans hb'.1.symm, fun _ => hb'⟩, hc⟩
    · obtain ⟨hk, hc', ht'⟩ := Socket.isReliable_of_open.error ⟨hc, h hc⟩ ht
      exact ⟨hk, fun _ => ht', hc'⟩
  flush {s s' r} h hw := by
    obtain ⟨h, hc⟩ := h
    cases s with
    | memory m =>
      cases hw
      exact ⟨rfl, trivial, hc⟩
    | script a b c =>
      cases hw
      obtain ⟨hr, hb'⟩ := ScriptSink.isReliable.flush (h.2 (h.1 ▸ hc)) rfl
      exact ⟨hr, ⟨hc.trans hb'.1.symm, fun _ => hb'⟩, hc⟩
    | socket t =>
      cases hw
      obtain ⟨hr, hc', ht'⟩ := Socket.isReliable_of_open.flush ⟨hc, h hc⟩ rfl
      exact ⟨hr, fun _ => ht', hc'⟩

/-- Once it is closed, it takes nothing. -/
theorem write_of_closed (h : s.WritesWhileOpen) (hc : s.isClosed = true) (l : Bytes) :
    Sink.write s l = (.error { kind := .notConnected }, s) := by
  change s.write l = _
  cases s with
  | memory m =>
    have hw : Sink.write m l = (.error { kind := .notConnected }, m) := if_pos hc
    simp only [write, hw]
  | script a b c =>
    have hw : Sink.write b l = (.error { kind := .notConnected }, b) := if_pos (h.1.symm.trans hc)
    simp only [write, hw]
  | socket t =>
    have hw : Sink.write t l = (.error { kind := .notConnected }, t) := if_pos hc
    simp only [write, hw]

/-- A flush does not change that. -/
theorem flush_of_closed {r : Except IoError Unit} (h : s.WritesWhileOpen)
    (hc : s.isClosed = true) (hf : Sink.flush s = (r, s')) :
    s'.WritesWhileOpen ∧ s'.isClosed = true ∧ s'.output = s.output := by
  cases s with
  | memory m =>
    cases hf
    exact ⟨trivial, hc, rfl⟩
  | script a b c =>
    have hb : b.closed = true := h.1.symm.trans hc
    have hb' : (Sink.flush b).2.closed = true := by
      change b.flush.2.closed = true
      unfold ScriptSink.flush
      split <;> exact hb
    cases hf
    refine ⟨⟨hc.trans hb'.symm, fun h0 => ?_⟩, hc, Sink.accepted_flush (s := b) rfl⟩
    rw [hb'] at h0
    cases h0
  | socket t =>
    cases hf
    exact ⟨h, hc, rfl⟩

theorem isKept_writesWhileOpen : Sink.IsKept WritesWhileOpen where
  write {s s' l r} h hl hw := by
    cases hc : s.isClosed with
    | true =>
      rw [write_of_closed h hc] at hw
      cases hw
      exact h
    | false =>
      cases r with
      | ok n => exact (isReliable_of_open.ok ⟨h, hc⟩ hl hw).2.1
      | error e => exact (isReliable_of_open.error ⟨h, hc⟩ hw).2.1
  flush {s s' r} h hf := by
    cases hc : s.isClosed with
    | true => exact (flush_of_closed h hc hf).1
    | false => exact (isReliable_of_open.flush ⟨h, hc⟩ hf).2.1

/-- A closed stream stays closed and gets nothing. -/
theorem isKept_closed (o : Bytes) : Sink.IsKept fun s : Stream =>
    s.WritesWhileOpen ∧ s.isClosed = true ∧ s.output = o where
  write {s s' l r} h hl hw := by
    rw [write_of_closed h.1 h.2.1] at hw
    cases hw
    exact h
  flush {s s' r} h hf := by
    obtain ⟨h1, h2, h3⟩ := flush_of_closed h.1 h.2.1 hf
    exact ⟨h1, h2, h3.trans h.2.2⟩

end Stream

end HttpServer
