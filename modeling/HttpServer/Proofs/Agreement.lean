import HttpServer.Proofs.Delivery
import HttpServer.Proofs.LineGrammar
import HttpServer.Proofs.MessageRun

/-!
# The two parsers agree

One parser takes whole lines from a reader and judges each when it is complete, the other is
fed single bytes and stops at the first that does not fit. `Agreement.Verdict` says what the
two answers to the same bytes have to do with each other, and `Agreement.parse_verdict` that
they always do : the proof follows the lines, and for each line compares what its bytes mean
to the one parser with what the line means to the other.

Both take the same messages, with the same request and the same bytes left over. Where they
reject, the error of the parser that takes lines is determined by the answer of the other one :
the two differ only where the bytes end inside a line that is already known to be malformed.
All of this is with room for every body, however long.
-/

namespace HttpServer

namespace Agreement

open ByteParser

variable {limits : Limits} {raw rest : Bytes} {p : ByteParser} {e : ParseError}

/-! ## What the answers have to do with each other -/

/-- The parser that is fed bytes has come to the start of a line, with these bytes of the
input before it. -/
def AtLine (limits : Limits) (raw rest : Bytes) (p : ByteParser) : Prop :=
  ∃ done, raw = done ++ rest ∧ (done = [] ∨ ∃ d, done = d ++ [lf]) ∧
    Feeds (ofLimits limits) done p

/-- The parser that is fed bytes is stopped in the line at whose start these bytes are
left. -/
def RejectsIn (limits : Limits) (raw line : Bytes) (e : ParseError) : Prop :=
  ∃ p, AtLine limits raw line p ∧ StopsAt p line e

/-- The error of the parser that takes lines for an answer of the parser that is fed
bytes. -/
inductive Failure (limits : Limits) (raw : Bytes) :
    ParseError → Except ParseError (Progress × Nat) × ByteParser → Prop where
  /-- The bytes end too early for both. -/
  | pending {p : ByteParser} : Failure limits raw p.endError (.ok (.pending, raw.length), p)
  /-- The declared length is too large for both. -/
  | tooLarge {n : Nat} {p : ByteParser} :
    Failure limits raw (.bodyTooLarge n) (.error (.bodyTooLarge n), p)
  /-- A line is malformed, which the parser that takes lines does not see if the bytes end
  inside the line and within its limit. -/
  | rejected {e e' : ParseError} {line : Bytes} {p : ByteParser} :
    RejectsIn limits raw line e → e.code = -2 ∨ e.code = -3 →
    (if lf ∉ line ∧ line.length ≤ limits.lineCap then e' = .read else e'.code = e.code) →
    Failure limits raw e' (.error e, p)

/-- What the answers of both parsers to the same bytes have to do with each other. -/
inductive Verdict {σ : Type} (P : σ → Bytes → Prop) (limits : Limits) (raw : Bytes) :
    Except ParseError Request × Reader σ →
    Except ParseError (Progress × Nat) × ByteParser → Prop where
  /-- Both take the message of the grammar that the bytes start with. -/
  | complete {m : Message} {tail : Bytes} {r : Reader σ} {p : ByteParser} :
    m.Fits limits → raw = m.render ++ tail → r.Holds P tail → p.request = m.request →
    Verdict P limits raw (.ok m.request, r) (.ok (.complete, m.render.length), p)
  /-- Both reject. -/
  | failed {e : ParseError} {r : Reader σ} {x : Except ParseError (Progress × Nat) × ByteParser} :
    Failure limits raw e x → Verdict P limits raw (.error e, r) x

/-! ## What the parser that is fed bytes makes of a line -/

theorem atLine_start (limits : Limits) (raw : Bytes) : AtLine limits raw raw (ofLimits limits) :=
  ⟨[], rfl, .inl rfl, .nil _⟩

/-- A line that is taken leads to the start of the next one. -/
theorem AtLine.next {pre post : Bytes} {p' : ByteParser}
    (h : AtLine limits raw (pre ++ lf :: post) p) (hf : Feeds p (pre ++ [lf]) p') :
    AtLine limits raw post p' := by
  obtain ⟨done, rfl, -, hd⟩ := h
  exact ⟨done ++ (pre ++ [lf]), by simp, .inr ⟨done ++ pre, by simp⟩, hd.append hf⟩

theorem AtLine.pending {p' : ByteParser} (h : AtLine limits raw rest p) (hf : Feeds p rest p')
    (hs : p'.state.inHead = true) :
    Failure limits raw .read ((ofLimits limits).feedSlice raw) := by
  obtain ⟨done, rfl, -, hd⟩ := h
  have hrun := feedList_of_feeds (hd.append hf) 0 []
  rw [List.append_nil, Nat.zero_add] at hrun
  have hend : p'.endError = .read := by
    refine if_neg fun h => ?_
    rw [h] at hs
    contradiction
  rw [feedSlice_ofLimits, hrun, ← hend]
  exact .pending

theorem AtLine.rejected {e' : ParseError} (h : AtLine limits raw rest p) (hst : StopsAt p rest e)
    (hcode : e.code = -2 ∨ e.code = -3)
    (he : if lf ∉ rest ∧ rest.length ≤ limits.lineCap then e' = .read else e'.code = e.code) :
    Failure limits raw e' ((ofLimits limits).feedSlice raw) := by
  have ⟨done, hraw, _, hd⟩ := h
  obtain ⟨p', hrun⟩ := hst.feedList (0 + done.length)
  rw [← feedList_of_feeds hd, ← hraw] at hrun
  rw [feedSlice_ofLimits, hrun]
  exact .rejected ⟨p, h, hst⟩ hcode he

/-- A line that ends is rejected with the code of its kind by both. -/
theorem AtLine.rejected_line {pre post : Bytes} {e' : ParseError}
    (h : AtLine limits raw (pre ++ lf :: post) p) (hst : StopsAt p (pre ++ [lf]) e)
    (hcode : e.code = -2 ∨ e.code = -3) (he : e'.code = e.code) :
    Failure limits raw e' ((ofLimits limits).feedSlice raw) := by
  have hst' := hst.append post
  rw [List.append_assoc, List.singleton_append] at hst'
  exact h.rejected hst' hcode (by rwa [if_neg (by simp)])

/-- No line ends between the start of the line that stops the parser and the byte that does. -/
theorem AtLine.eq_nil_of_stopsAt {x : Bytes} {p' : ByteParser}
    (h : AtLine limits raw (x ++ rest) p) (hst : StopsAt p (x ++ rest) e)
    (h' : AtLine limits raw rest p') : x = [] := by
  obtain ⟨done, rfl, -, hd⟩ := h
  obtain ⟨done', hraw, hend, hd'⟩ := h'
  obtain rfl : done ++ x = done' := by
    rw [← List.append_assoc] at hraw
    exact List.append_cancel_right hraw
  rcases List.eq_nil_or_concat x with rfl | ⟨x, b, rfl⟩
  · rfl
  rcases hend with hnil | ⟨d, hlast⟩
  · simp at hnil
  simp only [List.concat_eq_append] at hlast hst hd'
  rw [← List.append_assoc] at hlast
  obtain rfl : b = lf := List.singleton_inj.1 (List.append_inj' hlast rfl).2
  obtain ⟨q, hq, hx⟩ := hd'.of_append
  obtain rfl := hd.unique hq
  rw [List.append_assoc, List.singleton_append] at hst
  exact absurd hx hst.not_feeds

/-- The line in which the parser is stopped is determined. -/
theorem RejectsIn.unique {l l' : Bytes} (h : RejectsIn limits raw l e)
    (h' : RejectsIn limits raw l' e) : l = l' := by
  obtain ⟨p, hp, hst⟩ := h
  obtain ⟨p', hp', hst'⟩ := h'
  have ⟨done, hraw, _⟩ := hp
  have ⟨done', hraw', _⟩ := hp'
  rcases List.append_eq_append_iff.1 (hraw.symm.trans hraw') with ⟨x, -, rfl⟩ | ⟨x, -, rfl⟩
  · rw [hp.eq_nil_of_stopsAt hst hp']
    rfl
  · rw [hp'.eq_nil_of_stopsAt hst' hp]
    rfl

/-! ## Following the lines -/

variable {σ : Type} [Source σ] {P : σ → Bytes → Prop} {r : Reader σ}

/-- A line is handed out whole, or the end of the input or the limit on lines decides for
both parsers. -/
theorem nextLine_or_failure (hP : Source.IsDelivery P) (hr : r.Holds P rest)
    (h : AtLine limits raw rest p) {code : Int} {R : Bytes → ByteParser → Prop}
    (hR : LineInvariant limits code R) (h0 : R [] p) (hcode : code = -2 ∨ code = -3)
    {blamed : ParseState} (hb : (ParseError.atState blamed).code = code) :
    (∃ e r', (LineParser.mk limits).nextLine r blamed = (.error e, r') ∧
        Failure limits raw e ((ofLimits limits).feedSlice raw)) ∨
      ∃ pre post r', (LineParser.mk limits).nextLine r blamed = (.ok (pre ++ [lf]), r') ∧
        rest = pre ++ lf :: post ∧ lf ∉ pre ∧ pre.length < limits.lineCap ∧ r'.Holds P post := by
  obtain ⟨x, post, r', hline, hnext, hr'⟩ := r.readLine_of_holds hP hr limits.lineCap
  unfold LineParser.nextLine
  rw [hline]
  cases hnext with
  | @line pre post hl hlen => exact .inr ⟨pre, post, r', rfl, rfl, hl, hlen, hr'⟩
  | overlong hlen hl =>
    obtain ⟨e, hst, he⟩ := hR.run_overlong h0 hl hlen
    refine .inl ⟨.atState blamed, r', rfl, h.rejected hst (he ▸ hcode) ?_⟩
    rw [if_neg fun hc => absurd hc.2 (Nat.not_le.2 hlen), hb, he]
  | ended => exact .inl ⟨.read, r', rfl, h.pending (.nil p) (hR.inHead h0)⟩
  | cut hne hlen hl =>
    refine .inl ⟨.read, r', rfl, ?_⟩
    rcases hR.run h0 hl (by simpa using hlen) with ⟨p', hf, hp'⟩ | ⟨e, hst, he⟩
    · exact h.pending hf (hR.inHead hp')
    · exact h.rejected hst (he ▸ hcode) (by rw [if_pos ⟨hl, hlen⟩])

theorem blame_startLine : (ParseError.atState .path).code = -2 := rfl

theorem blame_header : (ParseError.atState .headerValue).code = -3 := rfl

theorem startLine_or_failure {pre post : Bytes} (hl : lf ∉ pre) (hlen : pre.length < limits.lineCap)
    (hraw : raw = pre ++ lf :: post) :
    (∃ e, LineParser.startLine (pre ++ [lf]) = .error e ∧
        Failure limits raw e ((ofLimits limits).feedSlice raw)) ∨
      ∃ m t, LineParser.startLine (pre ++ [lf]) = .ok (Message.startRequest m t) ∧
        m ∈ Method.named ∧ Message.ValidPath t ∧ pre ++ [lf] = Message.startLine m t := by
  have h := atLine_start limits raw
  cases hs : LineParser.startLine (pre ++ [lf]) with
  | ok q =>
    obtain ⟨m, t, hm, ht, hline, rfl⟩ := LineParser.startLine_eq_ok_iff.1 hs
    exact .inr ⟨m, t, rfl, hm, ht, hline⟩
  | error e =>
    obtain ⟨e', hst, he'⟩ := stopsAt_startLine hl hlen fun m t hm ht hline => by
      rw [hline, LineParser.startLine_startLine hm ht] at hs
      contradiction
    rw [hraw] at h ⊢
    refine .inl ⟨e, rfl, h.rejected_line hst (.inl he') ?_⟩
    rw [LineParser.code_startLine hs, he']

theorem headerLine_or_failure {pre post : Bytes} {q : Request} (hl : lf ∉ pre)
    (hlen : pre.length < limits.lineCap) (hempty : pre ++ [lf] ≠ crlf)
    (h : AtLine limits raw (pre ++ lf :: post) (atHeader limits q)) :
    (∃ e, LineParser.headerLine q (pre ++ [lf]) = .error e) ∧
        (∀ e', e'.code = -3 → Failure limits raw e' ((ofLimits limits).feedSlice raw)) ∨
      ∃ h : HeaderLine, h.Valid ∧ pre ++ [lf] = h.render ∧
        LineParser.headerLine q (pre ++ [lf]) = .ok (q.withHeader h.key h.value) := by
  cases hs : LineParser.headerLine q (pre ++ [lf]) with
  | ok q' =>
    obtain ⟨g, hg, hline, rfl⟩ := LineParser.headerLine_eq_ok_iff.1 hs
    exact .inr ⟨g, hg, hline, rfl⟩
  | error e =>
    obtain ⟨e₀, hst, he₀⟩ := stopsAt_header (r := q) hl hlen hempty fun g hg hline => by
      rw [hline, LineParser.headerLine_render hg] at hs
      contradiction
    exact .inl ⟨⟨e, rfl⟩, fun e' he' => h.rejected_line hst (.inr he₀) (by rw [he', he₀])⟩

theorem headers_or_failure (hP : Source.IsDelivery P) {q : Request} (hr : r.Holds P rest)
    (h : AtLine limits raw rest (atHeader limits q)) :
    (∃ e r', (LineParser.mk limits).headers r q = (.error e, r') ∧
        Failure limits raw e ((ofLimits limits).feedSlice raw)) ∨
      ∃ hs post r', (LineParser.mk limits).headers r q = (.ok (Message.readHeaders q hs), r') ∧
        (∀ g ∈ hs, g.Valid) ∧ (∀ g ∈ hs, g.render.length ≤ limits.lineCap) ∧
        rest = hs.flatMap HeaderLine.render ++ crlf ++ post ∧ r'.Holds P post := by
  induction hn : rest.length using Nat.strongRecOn generalizing r rest q with
  | ind n ih =>
    subst hn
    rw [LineParser.headers_eq]
    rcases nextLine_or_failure hP hr h (ReadingHeader.lineInvariant limits q) (.start limits q)
      (.inr rfl) blame_header with
      ⟨e, r', hline, hf⟩ | ⟨pre, post, r', hline, rfl, hl, hlen, hr'⟩
    · rw [hline]
      exact .inl ⟨e, r', rfl, hf⟩
    rw [hline]
    simp only
    by_cases hempty : pre ++ [lf] = crlf
    · obtain rfl : pre = [cr] := by
        rw [crlf, ← List.singleton_append] at hempty
        exact List.append_cancel_right hempty
      rw [if_pos hempty]
      exact .inr ⟨[], post, r', rfl, by simp, by simp, rfl, hr'⟩
    rw [if_neg hempty]
    rcases headerLine_or_failure hl hlen hempty h with ⟨⟨e, he⟩, hf⟩ | ⟨g, hg, hrender, hok⟩
    · split_ifs
      · exact .inl ⟨_, r', rfl, hf _ rfl⟩
      · rw [he]
        exact .inl ⟨e, r', rfl, hf e (LineParser.code_headerLine he)⟩
    · have hpre : pre ≠ [] := by
        rintro rfl
        have := congrArg List.length hrender
        simp [HeaderLine.render, crlf] at this
        omega
      rw [if_neg (by simpa using hpre), hok]
      have hfit : g.render.length ≤ limits.lineCap := by
        rw [← hrender, List.length_append]
        exact hlen
      have hnext : AtLine limits raw post (atHeader limits (q.withHeader g.key g.value)) :=
        h.next (hrender ▸ feeds_header hg hfit q)
      rcases ih post.length (by simp; omega) hr' hnext rfl with
        ⟨e, r'', hrun, hf⟩ | ⟨hs, post', r'', hrun, hv, hlens, rfl, hr''⟩
      · exact .inl ⟨e, r'', hrun, hf⟩
      · refine .inr ⟨g :: hs, post', r'', hrun, by simpa [hg] using hv, by simpa [hfit] using hlens,
          ?_, hr''⟩
        rw [List.flatMap_cons, ← hrender]
        simp

/-- A head is taken whole, or the end of the input or one of its lines decides for both
parsers. -/
theorem head_or_failure (hP : Source.IsDelivery P) (hr : r.Holds P raw) :
    (∃ e r', (LineParser.mk limits).head r = (.error e, r') ∧
        Failure limits raw e ((ofLimits limits).feedSlice raw)) ∨
      ∃ (m : Message) (post : Bytes) (r' : Reader σ),
        (LineParser.mk limits).head r = (.ok m.headRequest, r') ∧ m.HeadFits limits ∧
        raw = m.head ++ post ∧ r'.Holds P post := by
  unfold LineParser.head
  rcases nextLine_or_failure hP hr (atLine_start limits raw) (ReadingStart.lineInvariant limits)
    .start (.inl rfl) blame_startLine with
    ⟨e, r', hline, hf⟩ | ⟨pre, post, r', hline, hraw, hl, hlen, hr'⟩
  · rw [hline]
    exact .inl ⟨e, r', rfl, hf⟩
  rw [hline]
  simp only
  rcases startLine_or_failure hl hlen hraw with ⟨e, he, hf⟩ | ⟨m, t, hok, hm, ht, hstart⟩
  · rw [he]
    exact .inl ⟨e, r', rfl, hf⟩
  rw [hok]
  simp only
  have hfit : (Message.startLine m t).length ≤ limits.lineCap := by
    rw [← hstart, List.length_append]
    exact hlen
  have hnext : AtLine limits raw post (atHeader limits (Message.startRequest m t)) := by
    have h := atLine_start limits raw
    rw [hraw] at h ⊢
    exact h.next (hstart ▸ feeds_startLine hm ht hfit)
  rcases headers_or_failure hP hr' hnext with
    ⟨e, r'', hrun, hf⟩ | ⟨hs, body, r'', hrun, hv, hlens, rfl, hr''⟩
  · exact .inl ⟨e, r'', hrun, hf⟩
  · refine .inr ⟨⟨m, t, hs, []⟩, body, r'', hrun, ⟨hm, ht, hv, hfit, hlens⟩, ?_, hr''⟩
    rw [hraw, Message.head, ← hstart]
    simp

/-- The body is taken up to the declared length, or the length decides for both parsers. -/
theorem body_verdict (hP : Source.IsDelivery P) {m : Message} {post : Bytes}
    (hr : r.Holds P post) (hm : m.HeadFits limits) (hraw : raw = m.head ++ post) :
    Verdict P limits raw ((LineParser.mk limits).body r m.headRequest)
      ((ofLimits limits).feedSlice raw) := by
  have hc := contentLength_headRequest hm
  subst hraw
  rw [LineParser.body]
  by_cases hmax : limits.maxBody < m.declared
  · obtain ⟨p, hp⟩ := feedSlice_head_of_gt hm hmax post
    rw [if_pos (hc ▸ hmax), hp, hc]
    exact .failed .tooLarge
  rw [if_neg (hc ▸ hmax)]
  rw [Nat.not_lt] at hmax
  by_cases hl : m.declared ≤ post.length
  · obtain ⟨p, hp, hreq⟩ := feedSlice_head_of_le hm hmax hl
    have hbody : (post.take m.declared).length = m.declared := by
      rw [List.length_take]
      omega
    have hfits : Message.Fits { m with body := post.take m.declared } limits :=
      ⟨⟨hm.1, hm.2, hm.3, hm.4, hm.5⟩, hbody, hmax⟩
    have hrender : m.head ++ post =
        Message.render { m with body := post.take m.declared } ++ post.drop m.declared := by
      rw [Message.render, List.append_assoc, List.take_append_drop]
      rfl
    have hlen : m.head.length + m.declared =
        (Message.render { m with body := post.take m.declared }).length := by
      rw [Message.render, List.length_append, hbody]
      rfl
    have htaken {r' : Reader σ} (hr' : r'.Holds P (post.drop m.declared)) :
        Verdict P limits (m.head ++ post)
          (.ok { m.headRequest with body := post.take m.declared }, r')
          ((ofLimits limits).feedSlice (m.head ++ post)) := by
      rw [hp, hlen]
      exact .complete hfits hrender hr' hreq
    by_cases h0 : m.declared = 0
    · rw [if_pos (hc.trans h0)]
      rw [h0, List.take_zero, ← m.body_headRequest] at htaken
      exact htaken hr
    · obtain ⟨r', hrun, hr'⟩ := r.readExact_of_le hP.isSupply hr hl
      have hrun' : r.readExact m.headRequest.contentLength = (.ok (post.take m.declared), r') := by
        rw [hc, hrun]
      rw [if_neg (hc ▸ h0), hrun']
      exact htaken hr'
  · obtain ⟨p, hp, hs⟩ := feedSlice_head_of_lt hm hmax (Nat.lt_of_not_le hl)
    obtain ⟨e, r', hrun⟩ := r.readExact_of_lt hP.isSupply hr (Nat.lt_of_not_le hl)
    have hend : p.endError = .bodyLength := if_pos hs
    rw [if_neg (by omega), hc, hrun, hp, ← hend]
    exact .failed .pending

/-- The answers of both parsers to the same bytes agree. -/
theorem parse_verdict (hP : Source.IsDelivery P) (hr : r.Holds P raw) :
    Verdict P limits raw ((LineParser.mk limits).parse r) ((ofLimits limits).feedSlice raw) := by
  unfold LineParser.parse
  rcases head_or_failure hP hr with ⟨e, r', hhead, hf⟩ | ⟨m, post, r', hhead, hm, hraw, hr'⟩
  · rw [hhead]
    exact .failed hf
  · rw [hhead]
    exact body_verdict hP hr' hm hraw

/-! ## A finished stream in memory -/

theorem parse_verdict_ofInput (limits : Limits) (capacity : Nat) (raw : Bytes) :
    Verdict MemoryStream.Delivers limits raw
      ((LineParser.mk limits).parse (Reader.withCapacity capacity (MemoryStream.ofInput raw)))
      ((ofLimits limits).feedSlice raw) :=
  parse_verdict MemoryStream.isDelivery
    (Reader.holds_withCapacity capacity (MemoryStream.delivers_ofInput raw))

end Agreement

end HttpServer
