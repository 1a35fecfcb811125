import HttpServer.Proofs.Sending

/-!
# Going on after a failure

A writer can be used on after a call has failed. What it has gathered is kept until the sink
has taken all of it, so that a sink which fails halfway gets the front part again with the
next attempt.

Calls with less data than fits into the buffer are followed here through all failures. As long
as no call tears what is gathered (`Writer.Tears`), the sink has a front part of what was
written. Once a call does, the next flush that succeeds sends some bytes twice
(`Writer.prefix_written_iff_untorn`).
-/

namespace HttpServer

/-- A call on a writer. -/
inductive WriterCall where
  | write (l : Bytes)
  | flush

/-- The data of a call. -/
def WriterCall.data : WriterCall → Bytes
  | write l => l
  | flush => []

namespace Writer

variable {σ : Type} [Sink σ] {w : Writer σ} {c : WriterCall} {cs : List WriterCall}

/-- One call. -/
def call (w : Writer σ) : WriterCall → Except IoError Unit × Writer σ
  | .write l => w.write l
  | .flush => w.flush

/-- The data of a call, if it is answered with success. -/
def answered (w : Writer σ) (c : WriterCall) : Bytes :=
  match (w.call c).1 with
  | .ok () => c.data
  | .error _ => []

/-- The writer after some calls, whatever is answered to each of them. -/
def callEach (w : Writer σ) : List WriterCall → Writer σ
  | [] => w
  | c :: cs => (w.call c).2.callEach cs

/-- The data of the calls that are answered with success, one after the other. -/
def written (w : Writer σ) : List WriterCall → Bytes
  | [] => []
  | c :: cs => w.answered c ++ (w.call c).2.written cs

/-- The call fails after the sink has taken a part of what is gathered, and not all of it. -/
def Tears (w : Writer σ) (c : WriterCall) : Prop :=
  (w.call c).1 ≠ .ok () ∧ Sink.accepted (w.call c).2.sink ≠ Sink.accepted w.sink ∧
    (w.call c).2.buffer ≠ []

/-- None of the calls tears what is gathered. -/
def Untorn (w : Writer σ) : List WriterCall → Prop
  | [] => True
  | c :: cs => ¬ w.Tears c ∧ (w.call c).2.Untorn cs

/-! ## One call -/

theorem passes_call (w : Writer σ) (c : WriterCall) : w.Passes c.data (w.call c) := by
  cases c with
  | write l => exact passes_write w l
  | flush => exact passes_flush w

theorem taken_call_of_ok (h : (w.call c).1 = .ok ()) :
    (w.call c).2.taken = w.taken ++ w.answered c := by
  rw [(passes_call w c).taken_ok h, answered, h]

/-- A call with less data than fits into the buffer sends nothing of that data. It carries over what
is gathered or gets stuck on it. -/
theorem call_cases (hc : c.data.length < w.capacity) :
    (Sink.accepted (w.call c).2.sink <+: w.taken ∧ ¬ w.Tears c ∧
      (w.call c).2.taken = w.taken ++ w.answered c) ∨
    ∃ e s t, w.call c = (.error e, { w with sink := s }) ∧ t <+: w.buffer ∧ t ≠ w.buffer ∧
      Sink.accepted s = Sink.accepted w.sink ++ t := by
  cases c with
  | write l =>
    have hplace (w' : Writer σ) (h : w'.capacity = w.capacity) :
        w'.place l = (.ok (), { w' with buffer := w'.buffer ++ l }) :=
      if_neg (by rw [h]; exact Nat.not_le.2 hc)
    rcases Nat.lt_or_ge w.capacity (w.buffer.length + l.length) with hlt | hle
    · rcases flushBuffer_cases w with ⟨s, hf, hs⟩ | ⟨e, s, t, hf, ht⟩
      · have hw : w.call (.write l) = (.ok (), { w with sink := s, buffer := l }) := by
          rw [call, write_of_drained hlt hf]
          exact hplace _ rfl
        refine .inl ⟨?_, fun h => h.1 (by rw [hw]), taken_call_of_ok (by rw [hw])⟩
        rw [hw]
        exact hs ▸ List.prefix_rfl
      · exact .inr ⟨e, s, t, write_of_stuck hlt hf, ht⟩
    · have hw : w.call (.write l) = (.ok (), { w with buffer := w.buffer ++ l }) := by
        rw [call, write_of_room hle, hplace w rfl]
      refine .inl ⟨?_, fun h => h.1 (by rw [hw]), taken_call_of_ok (by rw [hw])⟩
      rw [hw]
      exact List.prefix_append _ _
  | flush =>
    rcases flushBuffer_cases w with ⟨s, hf, hs⟩ | ⟨e, s, t, hf, ht⟩
    · have hw := flush_of_drained hf
      have hsink : Sink.accepted (Sink.flush s).2 = w.taken := (Sink.accepted_flush rfl).trans hs
      refine .inl ⟨?_, fun h => h.2.2 ?_, ?_⟩
      · rw [call, hw]
        exact hsink ▸ List.prefix_rfl
      · rw [call, hw]
      · have hanswered : w.answered .flush = [] := by
          unfold answered
          split <;> rfl
        rw [hanswered, call, hw, taken]
        simpa using hsink
    · exact .inr ⟨e, s, t, flush_of_stuck hf, ht⟩

/-- While a call is under way, the sink has a front part of what was taken over before. -/
theorem accepted_call_prefix (hc : c.data.length < w.capacity) :
    Sink.accepted (w.call c).2.sink <+: w.taken := by
  rcases call_cases hc with ⟨h, -, -⟩ | ⟨e, s, t, h, ht, -, hs⟩
  · exact h
  · rw [h, hs]
    exact (List.prefix_append_right_inj _).2 ht

theorem taken_call (hc : c.data.length < w.capacity) (hw : ¬ w.Tears c) :
    (w.call c).2.taken = w.taken ++ w.answered c := by
  rcases call_cases hc with ⟨-, -, h⟩ | ⟨e, s, t, h, ht, hne, hs⟩
  · exact h
  · have hbuffer : w.buffer ≠ [] := fun h0 => hne (by rw [h0] at ht ⊢; exact List.prefix_nil.1 ht)
    have hkept : Sink.accepted s = Sink.accepted w.sink :=
      Classical.not_not.1 fun hs' => hw ⟨by simp [h], by rwa [h], by rwa [h]⟩
    simp [answered, taken, h, hkept]

/-- What the sink has taken of the buffer is still gathered, and counts twice. -/
theorem length_taken_call (hc : c.data.length < w.capacity) (hw : w.Tears c) :
    w.taken.length + (w.answered c).length < (w.call c).2.taken.length := by
  rcases call_cases hc with ⟨-, h, -⟩ | ⟨e, s, t, h, -, -, hs⟩
  · exact absurd hw h
  · have ht : t ≠ [] := fun h0 => hw.2.1 (by simp [h, hs, h0])
    have := List.length_pos_iff.2 ht
    simp [answered, taken, h, hs]
    omega

/-! ## One call after the other -/

theorem capacity_call (w : Writer σ) (c : WriterCall) : (w.call c).2.capacity = w.capacity :=
  (passes_call w c).capacity_eq

theorem callEach_concat (w : Writer σ) (cs : List WriterCall) (c : WriterCall) :
    w.callEach (cs ++ [c]) = ((w.callEach cs).call c).2 := by
  induction cs generalizing w with
  | nil => rfl
  | cons d cs ih => exact ih _

theorem capacity_callEach (w : Writer σ) (cs : List WriterCall) :
    (w.callEach cs).capacity = w.capacity := by
  induction cs generalizing w with
  | nil => rfl
  | cons c cs ih => exact (ih _).trans (capacity_call w c)

theorem taken_callEach (hcs : ∀ c ∈ cs, c.data.length < w.capacity) (h : w.Untorn cs) :
    (w.callEach cs).taken = w.taken ++ w.written cs := by
  induction cs generalizing w with
  | nil => exact (List.append_nil _).symm
  | cons c cs ih =>
    rw [List.forall_mem_cons] at hcs
    rw [callEach, written, ih (by simpa only [capacity_call] using hcs.2) h.2,
      taken_call hcs.1 h.1, List.append_assoc]

theorem length_taken_callEach (hcs : ∀ c ∈ cs, c.data.length < w.capacity) :
    w.taken.length + (w.written cs).length ≤ (w.callEach cs).taken.length ∧
      (¬ w.Untorn cs → w.taken.length + (w.written cs).length < (w.callEach cs).taken.length) := by
  induction cs generalizing w with
  | nil => exact ⟨Nat.le_refl _, fun h => absurd trivial h⟩
  | cons c cs ih =>
    rw [List.forall_mem_cons] at hcs
    obtain ⟨hle, hlt⟩ := ih (w := (w.call c).2) (by simpa only [capacity_call] using hcs.2)
    simp only [callEach, written, Untorn, List.length_append]
    by_cases hc : w.Tears c
    · have := length_taken_call hcs.1 hc
      exact ⟨by omega, fun _ => by omega⟩
    · have := congrArg List.length (taken_call hcs.1 hc)
      rw [List.length_append] at this
      refine ⟨by omega, fun h => ?_⟩
      have := hlt fun h' => h ⟨hc, h'⟩
      omega

/-- With less data in each call than fits into the buffer, the sink has a front part of what was
written as long as no call tears what is gathered, and up to the end of the first call that does.
After a flush that succeeds it has one exactly if none did. -/
theorem prefix_written_iff_untorn {capacity : Nat} (s : σ) (cs : List WriterCall)
    (hcs : ∀ c ∈ cs, c.data.length < capacity) :
    ((withCapacity capacity s).Untorn cs → ∀ c : WriterCall, c.data.length < capacity →
      Sink.accepted ((withCapacity capacity s).callEach (cs ++ [c])).sink <+:
        Sink.accepted s ++ (withCapacity capacity s).written cs) ∧
    (((withCapacity capacity s).callEach cs).flush.1 = .ok () →
      (Sink.accepted ((withCapacity capacity s).callEach cs).flush.2.sink <+:
          Sink.accepted s ++ (withCapacity capacity s).written cs ↔
        (withCapacity capacity s).Untorn cs)) := by
  generalize hw : withCapacity capacity s = w
  have hcapacity : w.capacity = capacity := by rw [← hw]; rfl
  have htaken : w.taken = Sink.accepted s := by rw [← hw]; exact List.append_nil _
  rw [← hcapacity] at hcs
  rw [← htaken]
  refine ⟨fun h c hc => ?_, fun hflush => ?_⟩
  · rw [callEach_concat, ← taken_callEach hcs h]
    exact accepted_call_prefix (by rwa [capacity_callEach, hcapacity])
  · rw [accepted_flush hflush]
    refine ⟨fun h => Classical.byContradiction fun htorn => ?_, fun h => ?_⟩
    -- After a torn call more has been taken over than was written, however it goes on.
    · have := h.length_le
      have := (length_taken_callEach hcs).2 htorn
      rw [List.length_append] at *
      omega
    · exact taken_callEach hcs h ▸ List.prefix_rfl

/-- A sink that refuses the first attempt and takes the next ones in pieces. -/
def refusingSink : ScriptSink :=
  { intakes := [.failure .other, .take 2, .failure .interrupted, .take 1] }

/-- A flush that fails at once can be repeated. -/
theorem prefix_written_refusingSink :
    (withCapacity 8 refusingSink).Untorn [.write (utf8 "abc"), .flush, .write (utf8 "de")] ∧
      ((withCapacity 8 refusingSink).callEach
          [.write (utf8 "abc"), .flush, .write (utf8 "de")]).flush.1 = .ok () ∧
      Sink.accepted ((withCapacity 8 refusingSink).callEach
          [.write (utf8 "abc"), .flush, .write (utf8 "de")]).flush.2.sink <+:
        Sink.accepted refusingSink ++ (withCapacity 8 refusingSink).written
          [.write (utf8 "abc"), .flush, .write (utf8 "de")] := by
  have habc : utf8 "abc" = [97, 98, 99] := by decide
  have hde : utf8 "de" = [100, 101] := by decide
  have huntorn : (withCapacity 8 refusingSink).Untorn
      [.write (utf8 "abc"), .flush, .write (utf8 "de")] := by
    simp [Untorn, Tears, withCapacity, call, write, flush, flushBuffer, Sink.writeAll, Sink.write,
      Sink.accepted, ScriptSink.write, refusingSink, habc, hde]
  have hflush : ((withCapacity 8 refusingSink).callEach
      [.write (utf8 "abc"), .flush, .write (utf8 "de")]).flush.1 = .ok () := by
    simp [callEach, withCapacity, call, write, flush, flushBuffer, Sink.writeAll, Sink.write,
      Sink.flush, ScriptSink.write, ScriptSink.flush, refusingSink, habc, hde]
  exact ⟨huntorn, hflush,
    ((prefix_written_iff_untorn refusingSink _ (by decide)).2 hflush).2 huntorn⟩

/-- A sink that fails after it has taken two bytes. -/
def tornSink : ScriptSink := { intakes := [.take 2, .failure .other] }

/-- A flush that fails halfway and is repeated sends the front part twice. -/
theorem not_prefix_written_tornSink :
    (∀ c ∈ [WriterCall.write (utf8 "abc"), .flush, .flush], c.data.length < 8) ∧
      ¬ Sink.accepted ((withCapacity 8 tornSink).callEach
          [.write (utf8 "abc"), .flush, .flush]).sink <+:
        Sink.accepted tornSink ++ (withCapacity 8 tornSink).written
          [.write (utf8 "abc"), .flush, .flush] := by
  have habc : utf8 "abc" = [97, 98, 99] := by decide
  have hsent : Sink.accepted ((withCapacity 8 tornSink).callEach
      [.write (utf8 "abc"), .flush, .flush]).sink = [97, 98, 97, 98, 99] := by
    simp [callEach, withCapacity, call, write, flush, flushBuffer, Sink.writeAll, Sink.write,
      Sink.flush, Sink.accepted, ScriptSink.write, ScriptSink.flush, tornSink, habc]
  have hwritten : Sink.accepted tornSink ++ (withCapacity 8 tornSink).written
      [.write (utf8 "abc"), .flush, .flush] = [97, 98, 99] := by
    simp [written, answered, WriterCall.data, withCapacity, call, write, flush, flushBuffer,
      Sink.writeAll, Sink.write, Sink.flush, Sink.accepted, ScriptSink.write, ScriptSink.flush,
      tornSink, habc]
  rw [hsent, hwritten]
  decide

end Writer

end HttpServer
