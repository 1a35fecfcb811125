import HttpServer.Proofs.Agreement

/-!
# The grammar is recognised

The parser that is fed bytes completes a request exactly when it has read a message of the
grammar that is within the limits, and the request is the one the message denotes
(`ByteParser.feedSlice_recognizes`). No message of the grammar is a proper beginning of
another (`Message.render_append_inj`), so at most one length fits.

That a message is completed is `ByteParser.feedSlice_render`. That nothing else is completed
follows from the lines that the other parser cuts the input into : both complete the same
message (`Agreement.parse_verdict`).
-/

namespace HttpServer

variable {limits : Limits} {raw : Bytes}

namespace ByteParser

theorem fits_of_complete {n : Nat} (h : ((ofLimits limits).feedSlice raw).1 = .ok (.complete, n)) :
    ∃ m : Message, ∃ tail, m.Fits limits ∧ raw = m.render ++ tail ∧ n = m.render.length := by
  have hverdict := Agreement.parse_verdict_ofInput limits 0 raw
  generalize LineParser.parse _ (Reader.withCapacity 0 (MemoryStream.ofInput raw)) = x at hverdict
  generalize (ofLimits limits).feedSlice raw = y at h hverdict
  cases hverdict with
  | @complete m tail r p hm hraw hr hreq =>
    obtain ⟨-, rfl⟩ := Prod.mk.inj (Except.ok.inj h)
    exact ⟨m, tail, hm, hraw, rfl⟩
  | failed hf => cases hf <;> cases h

theorem complete_of_fits {n : Nat} {m : Message} (hn : n ≤ raw.length) (hm : m.Fits limits)
    (hraw : raw.take n = m.render) :
    ((ofLimits limits).feedSlice raw).1 = .ok (.complete, n) ∧
      ((ofLimits limits).feedSlice raw).2.request = m.request := by
  obtain ⟨p, hrun, hreq⟩ := feedSlice_render hm (raw.drop n)
  have hlen : m.render.length = n := by
    rw [← hraw, List.length_take]
    omega
  rw [← hraw, List.take_append_drop, hraw, hlen] at hrun
  rw [hrun]
  exact ⟨rfl, hreq⟩

end ByteParser

/-- What starts with a message of the grammar starts with no other one. -/
theorem Message.render_append_inj {m m' : Message} {l l' : Bytes} (hm : m.Fits limits)
    (hm' : m'.Fits limits) (h : m.render ++ l = m'.render ++ l') :
    m.render = m'.render ∧ m.request = m'.request := by
  obtain ⟨p, hrun, hreq⟩ := ByteParser.feedSlice_render hm l
  obtain ⟨p', hrun', hreq'⟩ := ByteParser.feedSlice_render hm' l'
  rw [h, hrun', Prod.mk.injEq, Except.ok.injEq, Prod.mk.injEq] at hrun
  obtain ⟨⟨-, hlen⟩, rfl⟩ := hrun
  exact ⟨List.append_inj_left h hlen.symm, hreq.symm.trans hreq'⟩

/-- A message of the grammar is taken from whatever delivers it, and what follows it is left. -/
theorem LineParser.parse_render {σ : Type} [Source σ] {P : σ → Bytes → Prop}
    (hP : Source.IsDelivery P) {m : Message} (hm : m.Fits limits) {tail : Bytes} {r : Reader σ}
    (hr : r.Holds P (m.render ++ tail)) :
    ∃ r', (LineParser.mk limits).parse r = (.ok m.request, r') ∧ r'.Holds P tail := by
  have hverdict : Agreement.Verdict P limits _ _ _ := Agreement.parse_verdict hP hr
  obtain ⟨p, hrun, -⟩ := ByteParser.feedSlice_render hm tail
  generalize (LineParser.mk limits).parse r = x at hverdict ⊢
  generalize (ByteParser.ofLimits limits).feedSlice (m.render ++ tail) = y at hrun hverdict
  cases hverdict with
  | complete hm' hraw hr' =>
    obtain ⟨hrender, hreq⟩ := Message.render_append_inj hm hm' hraw
    rw [hrender] at hraw
    exact ⟨_, by rw [hreq], List.append_cancel_left hraw ▸ hr'⟩
  | failed hf => cases hf <;> cases hrun

namespace ByteParser

/-- A new parser completes a request after `n` bytes exactly if these are a message of the
grammar within the limits. There is at most one such `n`, and the request is what the message
denotes. The body has the length that is written down, unless not even the whole message has
a length that fits into a count. -/
theorem feedSlice_recognizes (limits : Limits) (raw : Bytes) :
    (∀ n, ((ofLimits limits).feedSlice raw).1 = .ok (.complete, n) ↔
        n ≤ raw.length ∧ ∃ m : Message, m.Fits limits ∧ raw.take n = m.render) ∧
      (∀ n (m : Message), n ≤ raw.length ∧ m.Fits limits ∧ raw.take n = m.render →
        m.Denotes ((ofLimits limits).feedSlice raw).2.request ∧
        (raw.length ≤ wordMax → m.body.length = m.writtenLength) ∧
        ∀ n' (m' : Message), n' ≤ raw.length ∧ m'.Fits limits ∧ raw.take n' = m'.render →
          n' = n) := by
  refine ⟨fun n => ⟨fun h => ?_, fun ⟨hn, m, hm, hraw⟩ => (complete_of_fits hn hm hraw).1⟩, ?_⟩
  · obtain ⟨m, tail, hm, rfl, rfl⟩ := fits_of_complete h
    exact ⟨by simp, m, hm, List.take_left⟩
  · rintro n m ⟨hn, hm, hraw⟩
    obtain ⟨hrun, hreq⟩ := complete_of_fits hn hm hraw
    refine ⟨hreq ▸ Message.denotes_request hm.headers_valid, fun hlen => ?_, ?_⟩
    · rw [hm.body_length, hm.declared_eq]
      rw [← hraw, List.length_take]
      omega
    · rintro n' m' ⟨hn', hm', hraw'⟩
      have happend : m.render ++ raw.drop n = m'.render ++ raw.drop n' := by
        rw [← hraw, ← hraw', List.take_append_drop, List.take_append_drop]
      have hlen := congrArg List.length (Message.render_append_inj hm hm' happend).1
      rw [← hraw, ← hraw', List.length_take, List.length_take] at hlen
      omega

/-- A message with two length lines, of which the second counts. -/
def twoLengths : Message where
  method := .post
  path := utf8 "//a/"
  headers := [⟨utf8 "Content-Length", utf8 "7"⟩, ⟨utf8 "content-length", utf8 "02"⟩]
  body := utf8 "hi"

theorem fits_twoLengths : twoLengths.Fits {} where
  method_named := by decide
  path_valid := ⟨by decide, List.all_eq_true.1 (by decide)⟩
  headers_valid := by
    intro h hh
    simp only [twoLengths, List.mem_cons, List.not_mem_nil, or_false] at hh
    rcases hh with rfl | rfl
    all_goals exact ⟨by decide, List.all_eq_true.1 (by decide), by decide,
      List.all_eq_true.1 (by decide), fun _ => List.all_eq_true.1 (by decide)⟩
  startLine_length := by decide
  header_length := by decide
  body_length := by decide
  body_le := by decide

/-- It is completed at its end and no further byte is taken. -/
theorem feedSlice_twoLengths :
    ((ofLimits {}).feedSlice (twoLengths.render ++ utf8 "GET")).1 =
        .ok (.complete, twoLengths.render.length) ∧
      twoLengths.Denotes ((ofLimits {}).feedSlice (twoLengths.render ++ utf8 "GET")).2.request :=
  have h := feedSlice_recognizes {} (twoLengths.render ++ utf8 "GET")
  ⟨(h.1 _).2 ⟨by decide, _, fits_twoLengths, by decide⟩,
    (h.2 twoLengths.render.length _ ⟨by decide, fits_twoLengths, by decide⟩).1⟩

end ByteParser

end HttpServer
