import HttpServer.Context

/-!
# What reaches the sink

A sink may take a write in pieces of any size, be interrupted and fail at any moment, and a
writer holds back what it has gathered. Neither shows in what arrives : the bytes the sink
has taken, followed by those the writer has gathered, are the bytes that were written
(`Writer.taken`, `Writer.Passes`). A stretch that is as large as the buffer goes past it, and
then nothing is gathered that it could overtake.

A response that is sent through a fresh writer has arrived as a whole if the answer is
success, and up to some point if it is a failure (`Response.accepted_send`).
-/

namespace HttpServer

variable {σ : Type} [Sink σ]

namespace Sink

variable {s : σ} {l : Bytes}

/-- The sink takes a front part of what is written, and all of it exactly on success. -/
theorem accepted_writeAll (s : σ) (l : Bytes) :
    ∃ t, t <+: l ∧ accepted (writeAll s l).2 = accepted s ++ t ∧
      ((writeAll s l).1 = .ok () ↔ t = l) := by
  fun_induction writeAll s l with
  | case1 s => exact ⟨[], List.prefix_rfl, by simp, by simp⟩
  | case2 s l hl s' h =>
    have hs := accepted_ok h
    exact ⟨[], List.nil_prefix, by simpa using hs, by simpa using Ne.symm hl⟩
  | case3 s l hl n s' h hn ih =>
    obtain ⟨t, ht, hs, hok⟩ := ih
    refine ⟨l.take n ++ t, ?_, by rw [hs, accepted_ok h, List.append_assoc], hok.trans ?_⟩
    · conv => rhs; rw [← List.take_append_drop n l]
      exact (List.prefix_append_right_inj _).2 ht
    · conv => rhs; rhs; rw [← List.take_append_drop n l]
      rw [List.append_cancel_left_eq]
  | case4 s l hl e s' h hk ih =>
    rw [← accepted_error h]
    exact ih
  | case5 s l hl e s' h hk =>
    exact ⟨[], List.nil_prefix, by simpa using accepted_error h, by simpa using Ne.symm hl⟩

/-- As long as `P` holds of the sink, every write takes something or is interrupted, and every
flush succeeds. -/
structure IsReliable (P : σ → Prop) : Prop where
  ok {s s' : σ} {l : Bytes} {n : Nat} : P s → l ≠ [] → write s l = (.ok n, s') → 0 < n ∧ P s'
  error {s s' : σ} {l : Bytes} {e : IoError} : P s → write s l = (.error e, s') →
    e.kind = .interrupted ∧ P s'
  flush {s s' : σ} {r : Except IoError Unit} : P s → flush s = (r, s') → r = .ok () ∧ P s'

theorem IsReliable.writeAll_ok {P : σ → Prop} (hP : IsReliable P) (h : P s) :
    (writeAll s l).1 = .ok () ∧ P (writeAll s l).2 := by
  fun_induction writeAll s l with
  | case1 s => exact ⟨rfl, h⟩
  | case2 s l hl s' hw => exact absurd (hP.ok h hl hw).1 (Nat.lt_irrefl 0)
  | case3 s l hl n s' hw hn ih => exact ih (hP.ok h hl hw).2
  | case4 s l hl e s' hw hk ih => exact ih (hP.error h hw).2
  | case5 s l hl e s' hw hk => exact absurd (hP.error h hw).1 hk

end Sink

namespace Writer

/-! ## One call -/

/-- The bytes that a writer has taken over : what has arrived, and what is gathered. -/
def taken (w : Writer σ) : Bytes := Sink.accepted w.sink ++ w.buffer

/-- What can come of an attempt to pass `l` through a writer. -/
structure Passes (w : Writer σ) (l : Bytes) (x : Except IoError Unit × Writer σ) : Prop where
  /-- What has arrived stays. -/
  prefix_accepted : Sink.accepted w.sink <+: Sink.accepted x.2.sink
  /-- Nothing arrives that was not taken over before or is a front part of `l`. -/
  accepted_prefix : Sink.accepted x.2.sink <+: w.taken ++ l
  /-- On success all of `l` is taken over. -/
  taken_ok : x.1 = .ok () → x.2.taken = w.taken ++ l
  capacity_eq : x.2.capacity = w.capacity
  buffered_le : w.buffered ≤ w.capacity → x.2.buffered ≤ w.capacity

variable {w : Writer σ} {l l' : Bytes} {x : Except IoError Unit × Writer σ}

theorem Passes.refl (w : Writer σ) : w.Passes [] (.ok (), w) where
  prefix_accepted := List.prefix_rfl
  accepted_prefix := by simp [taken]
  taken_ok _ := (List.append_nil _).symm
  capacity_eq := rfl
  buffered_le h := h

/-- Where the attempt to pass `l` succeeds, another one can follow. -/
theorem Passes.trans {w' : Writer σ} (h : w.Passes l (.ok (), w')) (h' : w'.Passes l' x) :
    w.Passes (l ++ l') x where
  prefix_accepted := h.prefix_accepted.trans h'.prefix_accepted
  accepted_prefix := by
    rw [← List.append_assoc, ← h.taken_ok rfl]
    exact h'.accepted_prefix
  taken_ok hx := by rw [h'.taken_ok hx, h.taken_ok rfl, List.append_assoc]
  capacity_eq := h'.capacity_eq.trans h.capacity_eq
  buffered_le hw := h.capacity_eq ▸ h'.buffered_le (h.capacity_eq ▸ h.buffered_le hw)

/-- Where it fails, it does not matter what was to follow. -/
theorem Passes.append {w' : Writer σ} {e : IoError} (h : w.Passes l (.error e, w')) (l' : Bytes) :
    w.Passes (l ++ l') (.error e, w') where
  prefix_accepted := h.prefix_accepted
  accepted_prefix := by
    rw [← List.append_assoc]
    exact h.accepted_prefix.trans (List.prefix_append _ _)
  taken_ok hx := by contradiction
  capacity_eq := h.capacity_eq
  buffered_le := h.buffered_le

/-- The gathered bytes are handed on, or stay where they are. -/
theorem flushBuffer_cases (w : Writer σ) :
    (∃ s, w.flushBuffer = (.ok (), { w with sink := s, buffer := [] }) ∧
      Sink.accepted s = w.taken) ∨
    ∃ e s t, w.flushBuffer = (.error e, { w with sink := s }) ∧ t <+: w.buffer ∧ t ≠ w.buffer ∧
      Sink.accepted s = Sink.accepted w.sink ++ t := by
  obtain ⟨t, ht, hs, hok⟩ := Sink.accepted_writeAll w.sink w.buffer
  unfold flushBuffer
  rcases h : Sink.writeAll w.sink w.buffer with ⟨_ | _, s⟩
  · rename_i e
    rw [h] at hs hok
    exact .inr ⟨e, s, t, rfl, ht, fun h0 => absurd (hok.2 h0) (by simp), hs⟩
  · rw [h] at hs hok
    obtain rfl := hok.1 rfl
    exact .inl ⟨s, rfl, hs⟩

theorem passes_flushBuffer (w : Writer σ) : w.Passes [] w.flushBuffer := by
  rcases flushBuffer_cases w with ⟨s, h, hs⟩ | ⟨e, s, t, h, ht, -, hs⟩
  · rw [h]
    exact
      { prefix_accepted := by rw [hs]; exact List.prefix_append _ _
        accepted_prefix := by simp [hs]
        taken_ok := fun _ => by simp [taken, hs]
        capacity_eq := rfl
        buffered_le := fun _ => Nat.zero_le _ }
  · rw [h]
    exact
      { prefix_accepted := by rw [hs]; exact List.prefix_append _ _
        accepted_prefix := by
          rw [hs, List.append_nil]
          exact (List.prefix_append_right_inj _).2 ht
        taken_ok := fun h => by contradiction
        capacity_eq := rfl
        buffered_le := id }

/-- The second half of a write, once there is room : a stretch as large as the buffer goes past
it. -/
def place (w : Writer σ) (l : Bytes) : Except IoError Unit × Writer σ :=
  if w.capacity ≤ l.length then
    ((Sink.writeAll w.sink l).1, { w with sink := (Sink.writeAll w.sink l).2 })
  else (.ok (), { w with buffer := w.buffer ++ l })

theorem write_eq (w : Writer σ) (l : Bytes) :
    w.write l =
      match if w.capacity < w.buffer.length + l.length then w.flushBuffer else (.ok (), w) with
      | (.ok (), w') => w'.place l
      | (.error e, w') => (.error e, w') := by
  unfold write place
  rcases (if w.capacity < w.buffer.length + l.length then w.flushBuffer else (.ok (), w)) with
    ⟨_ | _, w'⟩
  · rfl
  · dsimp only
    split
    · split <;> simp [*]
    · rfl

theorem write_of_room (h : w.buffer.length + l.length ≤ w.capacity) : w.write l = w.place l := by
  rw [write_eq, if_neg (Nat.not_lt.2 h)]

theorem write_of_drained {w' : Writer σ} (h : w.capacity < w.buffer.length + l.length)
    (hf : w.flushBuffer = (.ok (), w')) : w.write l = w'.place l := by
  rw [write_eq, if_pos h, hf]

theorem write_of_stuck {w' : Writer σ} {e : IoError} (h : w.capacity < w.buffer.length + l.length)
    (hf : w.flushBuffer = (.error e, w')) : w.write l = (.error e, w') := by
  rw [write_eq, if_pos h, hf]

theorem flush_of_drained {w' : Writer σ} (hf : w.flushBuffer = (.ok (), w')) :
    w.flush = ((Sink.flush w'.sink).1, { w' with sink := (Sink.flush w'.sink).2 }) := by
  unfold flush
  rw [hf]

theorem flush_of_stuck {w' : Writer σ} {e : IoError} (hf : w.flushBuffer = (.error e, w')) :
    w.flush = (.error e, w') := by
  unfold flush
  rw [hf]

theorem passes_place (h : w.buffer = [] ∨ w.buffer.length + l.length ≤ w.capacity) :
    w.Passes l (w.place l) := by
  unfold place
  split
  · rename_i hl
    -- What goes past the buffer must not overtake anything in it.
    have hempty : w.buffer = [] := h.elim id fun h => List.length_eq_zero_iff.1 (by omega)
    obtain ⟨t, ht, hs, hok⟩ := Sink.accepted_writeAll w.sink l
    exact
      { prefix_accepted := by rw [hs]; exact List.prefix_append _ _
        accepted_prefix := by
          rw [hs, taken, hempty, List.append_nil]
          exact (List.prefix_append_right_inj _).2 ht
        taken_ok := fun hx => by simp [taken, hempty, hs, hok.1 hx]
        capacity_eq := rfl
        buffered_le := id }
  · rename_i hl
    exact
      { prefix_accepted := List.prefix_rfl
        accepted_prefix := by simp [taken]
        taken_ok := fun _ => by simp [taken]
        capacity_eq := rfl
        buffered_le := fun _ => by
          rcases h with h | h
          · simpa [buffered, h] using Nat.le_of_not_le hl
          · simpa [buffered] using h }

theorem passes_write (w : Writer σ) (l : Bytes) : w.Passes l (w.write l) := by
  rcases Nat.lt_or_ge w.capacity (w.buffer.length + l.length) with h | h
  · have hpass := passes_flushBuffer w
    rcases flushBuffer_cases w with ⟨s, hf, -⟩ | ⟨e, s, t, hf, -⟩
    · rw [hf] at hpass
      rw [write_of_drained h hf]
      exact hpass.trans (passes_place (.inl rfl))
    · rw [hf] at hpass
      rw [write_of_stuck h hf]
      exact hpass.append l
  · rw [write_of_room h]
    exact passes_place (.inr h)

theorem passes_flush (w : Writer σ) : w.Passes [] w.flush := by
  have hpass := passes_flushBuffer w
  rcases flushBuffer_cases w with ⟨s, hf, -⟩ | ⟨e, s, t, hf, -⟩
  · rw [hf] at hpass
    rw [flush_of_drained hf]
    have hs : Sink.accepted (Sink.flush s).2 = Sink.accepted s := Sink.accepted_flush rfl
    exact hpass.trans
      { prefix_accepted := hs ▸ List.prefix_rfl
        accepted_prefix := by simp [hs, taken]
        taken_ok := fun _ => by simp [hs, taken]
        capacity_eq := rfl
        buffered_le := id }
  · rw [flush_of_stuck hf, ← hf]
    exact hpass

/-- A flush that succeeds leaves nothing behind. -/
theorem accepted_flush (h : w.flush.1 = .ok ()) : Sink.accepted w.flush.2.sink = w.taken := by
  rcases flushBuffer_cases w with ⟨s, hf, hs⟩ | ⟨e, s, t, hf, -⟩
  · rw [flush_of_drained hf]
    exact (Sink.accepted_flush rfl).trans hs
  · rw [flush_of_stuck hf] at h
    contradiction

/-! ## One call after the other -/

theorem passes_writeEach (w : Writer σ) (ls : List Bytes) :
    w.Passes ls.flatten (w.writeEach ls) := by
  induction ls generalizing w with
  | nil => exact .refl w
  | cons l ls ih =>
    have h := passes_write w l
    rw [writeEach, List.flatten_cons]
    rcases hw : w.write l with ⟨_ | _, w'⟩
    · rw [hw] at h
      exact h.append _
    · rw [hw] at h
      exact h.trans (ih w')

/-! ## Sinks that never fail for good -/

section Reliable

variable {P : σ → Prop}

theorem flushBuffer_ok (hP : Sink.IsReliable P) (h : P w.sink) :
    ∃ s, w.flushBuffer = (.ok (), { w with sink := s, buffer := [] }) ∧ P s := by
  obtain ⟨hok, hs⟩ := hP.writeAll_ok (l := w.buffer) h
  refine ⟨_, ?_, hs⟩
  unfold flushBuffer
  split
  · simp [*]
  · simp [*] at hok

theorem place_ok (hP : Sink.IsReliable P) (h : P w.sink) (l : Bytes) :
    (w.place l).1 = .ok () ∧ P (w.place l).2.sink := by
  unfold place
  split
  · exact hP.writeAll_ok h
  · exact ⟨rfl, h⟩

theorem write_ok (hP : Sink.IsReliable P) (h : P w.sink) (l : Bytes) :
    (w.write l).1 = .ok () ∧ P (w.write l).2.sink := by
  rcases Nat.lt_or_ge w.capacity (w.buffer.length + l.length) with hlt | hle
  · obtain ⟨s, hf, hs⟩ := flushBuffer_ok hP h
    rw [write_of_drained hlt hf]
    exact place_ok hP hs l
  · rw [write_of_room hle]
    exact place_ok hP h l

theorem flush_ok (hP : Sink.IsReliable P) (h : P w.sink) : w.flush.1 = .ok () := by
  obtain ⟨s, hf, hs⟩ := flushBuffer_ok hP h
  rw [flush_of_drained hf]
  exact (hP.flush hs rfl).1

theorem writeEach_ok (hP : Sink.IsReliable P) (h : P w.sink) (ls : List Bytes) :
    (w.writeEach ls).1 = .ok () ∧ P (w.writeEach ls).2.sink := by
  induction ls generalizing w with
  | nil => exact ⟨rfl, h⟩
  | cons l ls ih =>
    obtain ⟨hok, hs⟩ := write_ok hP h l
    unfold writeEach
    split
    · rename_i hw
      rw [hw] at hs
      exact ih hs
    · rename_i hw
      rw [hw] at hok
      contradiction

end Reliable

end Writer

namespace Response

variable {r : Response} {w : Writer σ}

theorem passes_send (r : Response) (w : Writer σ) : w.Passes r.render (r.send w) := by
  have h := w.passes_writeEach r.pieces
  unfold send
  rcases hw : w.writeEach r.pieces with ⟨_ | _, w'⟩
  · rw [hw] at h
    exact h
  · rw [hw] at h
    simpa [render] using h.trans w'.passes_flush

/-- A response that is sent successfully has arrived, after all that was gathered before. -/
theorem accepted_of_send_ok (h : (r.send w).1 = .ok ()) :
    Sink.accepted (r.send w).2.sink = w.taken ++ r.render := by
  have hpass := w.passes_writeEach r.pieces
  unfold send at h ⊢
  rcases hw : w.writeEach r.pieces with ⟨_ | _, w'⟩
  · simp [hw] at h
  · rw [hw] at h hpass
    exact (Writer.accepted_flush h).trans (hpass.taken_ok rfl)

theorem send_ok {P : σ → Prop} (hP : Sink.IsReliable P) (h : P w.sink) :
    (r.send w).1 = .ok () := by
  obtain ⟨hok, hs⟩ := Writer.writeEach_ok hP h r.pieces
  unfold send
  split
  · rename_i hw
    rw [hw] at hs
    exact Writer.flush_ok hP hs
  · rename_i hw
    rw [hw] at hok
    contradiction

/-- A response that is sent through a fresh writer arrives as a whole if the answer is success,
and up to some point if it is a failure. The writer never gathers more than fits into its buffer,
and short writes and interruptions alone are no failure. -/
theorem accepted_send (r : Response) (capacity : Nat) (s : σ) :
    (match r.send (.withCapacity capacity s) with
      | (.ok (), w) => Sink.accepted w.sink = Sink.accepted s ++ r.render
      | (.error _, w) => ∃ t, t <+: r.render ∧ Sink.accepted w.sink = Sink.accepted s ++ t) ∧
      (∀ n, ((Writer.withCapacity capacity s).writeEach (r.pieces.take n)).2.buffered ≤ capacity) ∧
      (r.send (.withCapacity capacity s)).2.buffered ≤ capacity ∧
      ∀ P, Sink.IsReliable P → P s → (r.send (.withCapacity capacity s)).1 = .ok () := by
  have htaken : (Writer.withCapacity capacity s).taken = Sink.accepted s := List.append_nil _
  have hpass := passes_send r (.withCapacity capacity s)
  refine ⟨?_, fun n => ?_, hpass.buffered_le (Nat.zero_le _), fun P hP h => send_ok hP h⟩
  · split
    · rename_i w hw
      have hok := accepted_of_send_ok (r := r) (w := .withCapacity capacity s) (by rw [hw])
      rwa [hw, htaken] at hok
    · rename_i e w hw
      rw [hw] at hpass
      obtain ⟨t, ht⟩ := hpass.prefix_accepted
      have hle := hpass.accepted_prefix
      rw [htaken, ← ht] at hle
      exact ⟨t, (List.prefix_append_right_inj _).1 hle, ht.symm⟩
  · exact (Writer.passes_writeEach _ _).buffered_le (Nat.zero_le _)

end Response

/-- The script has no failure but interruptions, and every other write takes something. -/
def ScriptSink.NeverFails (s : ScriptSink) : Prop :=
  s.closed = false ∧ (∀ i ∈ s.intakes, i = .failure .interrupted ∨ ∃ n, i = .take (n + 1)) ∧
    ∀ f ∈ s.flushFailures, f = none

theorem ScriptSink.isReliable : Sink.IsReliable ScriptSink.NeverFails where
  ok {s s' l n} h hl hw := by
    obtain ⟨hc, hi, hf⟩ := h
    change s.write l = _ at hw
    have hpos := List.length_pos_iff.2 hl
    rw [write, if_neg (by simp [hc])] at hw
    split at hw
    · cases hw
      exact ⟨hpos, hc, hi, hf⟩
    · rename_i m rest hs
      rw [hs, List.forall_mem_cons] at hi
      obtain ⟨k, hk⟩ := hi.1.resolve_left (by simp)
      cases hw
      cases hk
      exact ⟨by omega, hc, hi.2, hf⟩
    · simp at hw
  error {s s' l e} h hw := by
    obtain ⟨hc, hi, hf⟩ := h
    change s.write l = _ at hw
    rw [write, if_neg (by simp [hc])] at hw
    split at hw
    · simp at hw
    · simp at hw
    · rename_i k rest hs
      rw [hs, List.forall_mem_cons] at hi
      cases hw
      exact ⟨by simpa using hi.1, hc, hi.2, hf⟩
  flush {s s' r} h hw := by
    obtain ⟨hc, hi, hf⟩ := h
    change s.flush = _ at hw
    unfold flush at hw
    split at hw
    · rename_i hs
      simp [hs] at hf
    · rename_i hs
      cases hw
      exact ⟨rfl, hc, hi, fun f h => hf f (by simp [hs, h])⟩
    · cases hw
      exact ⟨rfl, hc, hi, hf⟩

namespace Response

/-- A sink that is interrupted, then takes one byte, and is interrupted again. -/
def haltingSink : ScriptSink :=
  { intakes := [.failure .interrupted, .take 1, .failure .interrupted, .take 3] }

/-- A response of which some pieces go past the buffer and others do not arrives there. -/
theorem accepted_send_haltingSink :
    ∃ w, ({ body := utf8 "hello" } : Response).send (.withCapacity 4 haltingSink) = (.ok (), w) ∧
      Sink.accepted w.sink = ({ body := utf8 "hello" } : Response).render := by
  obtain ⟨hmatch, -, -, hok⟩ := accepted_send { body := utf8 "hello" } 4 haltingSink
  have h := hok _ ScriptSink.isReliable ⟨rfl, by simp [haltingSink], by simp [haltingSink]⟩
  split at hmatch
  · rename_i w hw
    exact ⟨w, hw, hmatch⟩
  · rename_i hw
    rw [hw] at h
    contradiction

end Response

end HttpServer
