import HttpServer.Proofs.ByteGrammar

/-!
# Feeding a whole message

The head of a message of the grammar is taken line by line up to its last byte
(`ByteParser.feeds_head`). From there on the declared length decides : a length beyond the
limit is refused, and otherwise the parser takes exactly as many bytes as are declared and is
pending as long as there are fewer (`ByteParser.feedSlice_head_of_gt`,
`ByteParser.feedSlice_head_of_le`, `ByteParser.feedSlice_head_of_lt`).

So a message of the grammar is taken whatever follows it (`ByteParser.feedSlice_render`).
-/

namespace HttpServer

theorem Limits.two_le_lineCap (limits : Limits) : 2 ≤ limits.lineCap := by
  simp only [lineCap, saturatingAdd, wordMax]
  omega

namespace ByteParser

variable {limits : Limits} {m : Message} {p : ByteParser} {l : Bytes}

/-! ## The head -/

theorem feeds_headers {hs : List HeaderLine} (hv : ∀ h ∈ hs, h.Valid)
    (hlen : ∀ h ∈ hs, h.render.length ≤ limits.lineCap) (r : Request) :
    Feeds (atHeader limits r) (hs.flatMap HeaderLine.render)
      (atHeader limits (Message.readHeaders r hs)) := by
  induction hs generalizing r with
  | nil => exact .nil _
  | cons h hs ih =>
    rw [List.forall_mem_cons] at hv hlen
    exact (feeds_header hv.1 hlen.1 r).append (ih hv.2 hlen.2 _)

/-- The head of a message of the grammar is taken up to its last byte, whatever the request
before it. -/
theorem feeds_head_into (h : m.HeadFits limits) (r : Request) :
    Feeds (inLine limits r .start [] [] 0)
      (Message.startLine m.method m.path ++ m.headers.flatMap HeaderLine.render ++ [cr])
      (inLine limits (m.readOnto r) .endLine [] [] 1) := by
  have hline := feeds_startLine_into h.method_named h.path_valid h.startLine_length r
  have hheaders := feeds_headers h.headers_valid h.header_length
    { r with method := m.method, path := Path.clean m.path }
  have hempty := feeds_emptyLine (Nat.lt_of_lt_of_le (by decide) limits.two_le_lineCap)
    (m.readOnto r)
  exact (hline.append hheaders).append hempty

/-- The head of a message of the grammar is taken up to its last byte. -/
theorem feeds_head (h : m.HeadFits limits) :
    Feeds (ofLimits limits)
      (Message.startLine m.method m.path ++ m.headers.flatMap HeaderLine.render ++ [cr])
      (inLine limits m.headRequest .endLine [] [] 1) :=
  feeds_head_into h {}

theorem feed_headEnd (limits : Limits) (r : Request) :
    (inLine limits r .endLine [] [] 1).feed lf = (inLine limits r .endLine [] [] 2).headEnd := by
  rw [feed_inLine rfl (Nat.lt_of_lt_of_le (by decide) limits.two_le_lineCap), step_endLine,
    if_pos rfl]

/-- The last byte of the head ends the head. -/
theorem feedList_head (h : m.HeadFits limits) :
    (ofLimits limits).feedList 0 (m.head ++ l) =
      match (inLine limits m.headRequest .endLine [] [] 2).headEnd with
      | (.ok .pending, p) => p.feedList m.head.length l
      | (.ok .complete, p) => (.ok (.complete, m.head.length), p)
      | (.error e, p) => (.error e, p) := by
  have hsplit : m.head ++ l = (Message.startLine m.method m.path ++
      m.headers.flatMap HeaderLine.render ++ [cr]) ++ lf :: l := by
    simp [Message.head, crlf]
  have hlen : m.head.length = (Message.startLine m.method m.path ++
      m.headers.flatMap HeaderLine.render ++ [cr]).length + 1 := by
    simp [Message.head, crlf, Nat.add_assoc]
  have hrun := feedList_of_feeds (feeds_head h) 0 (lf :: l)
  rw [feedList, feed_headEnd, Nat.zero_add] at hrun
  rw [hsplit, hlen]
  exact hrun

theorem contentLength_headRequest (h : m.HeadFits limits) :
    m.headRequest.contentLength = m.declared :=
  (Message.denotes_request h.headers_valid).contentLength

/-! ## The body -/

theorem feed_body (hs : p.state = .body) (b : UInt8) :
    p.feed b =
      if p.body.size + 1 = p.partialRequest.contentLength then
        { p with body := p.body.push b }.finish
      else (.ok .pending, { p with body := p.body.push b }) := by
  simp only [feed, step, hs, ParseState.inHead, Array.size_push, proceed]
  rfl

/-- A body that is not all there leaves the request pending. -/
theorem feedList_body_of_lt (hs : p.state = .body)
    (hl : p.body.size + l.length < p.partialRequest.contentLength) (n : Nat) :
    ∃ p', p.feedList n l = (.ok (.pending, n + l.length), p') ∧ p'.state = .body := by
  induction l generalizing p n with
  | nil => exact ⟨p, rfl, hs⟩
  | cons b l ih =>
    rw [List.length_cons] at hl
    have hfeed := feed_body hs b
    rw [if_neg (by omega)] at hfeed
    rw [feedList, hfeed, List.length_cons, Nat.add_comm l.length, ← Nat.add_assoc]
    exact ih (p := { p with body := p.body.push b }) hs (by simp; omega) (n + 1)

/-- A body that is all there is taken, and nothing after it. -/
theorem feedList_body_of_le (hs : p.state = .body)
    (hp : p.body.size < p.partialRequest.contentLength)
    (hl : p.partialRequest.contentLength ≤ p.body.size + l.length) (n : Nat) :
    ∃ p', p.feedList n l =
        (.ok (.complete, n + (p.partialRequest.contentLength - p.body.size)), p') ∧
      p'.request = { p.partialRequest with
        body := p.body.toList ++ l.take (p.partialRequest.contentLength - p.body.size) } := by
  induction l generalizing p n with
  | nil =>
    rw [List.length_nil] at hl
    omega
  | cons b l ih =>
    rw [List.length_cons] at hl
    have hfeed := feed_body hs b
    rw [feedList, hfeed]
    obtain ⟨k, hk⟩ : ∃ k, p.partialRequest.contentLength - p.body.size = k + 1 :=
      ⟨p.partialRequest.contentLength - p.body.size - 1, by omega⟩
    rw [hk, List.take_succ_cons]
    by_cases hend : p.body.size + 1 = p.partialRequest.contentLength
    · obtain rfl : k = 0 := by omega
      rw [if_pos hend]
      exact ⟨_, rfl, by simp [request]⟩
    · rw [if_neg hend]
      obtain ⟨p', hrun, hreq⟩ := ih (p := { p with body := p.body.push b }) hs
        (by simp; omega) (by simp; omega) (n + 1)
      have hk' : p.partialRequest.contentLength - (p.body.push b).size = k := by
        rw [Array.size_push]
        omega
      rw [hk'] at hrun hreq
      refine ⟨p', ?_, ?_⟩
      · simp only [hrun]
        rw [Nat.add_assoc, Nat.add_comm 1]
      · rw [hreq]
        simp

/-! ## Messages -/

/-- A declared length beyond the limit is refused. -/
theorem feedSlice_head_of_gt (h : m.HeadFits limits) (hmax : limits.maxBody < m.declared)
    (l : Bytes) :
    ∃ p, (ofLimits limits).feedSlice (m.head ++ l) = (.error (.bodyTooLarge m.declared), p) := by
  have hc := contentLength_headRequest h
  rw [feedSlice_ofLimits, feedList_head h, headEnd,
    if_pos (by simpa [inLine, hc] using hmax), ← hc]
  exact ⟨_, rfl⟩

theorem feedSlice_head_of_lt (h : m.HeadFits limits) (hmax : m.declared ≤ limits.maxBody)
    (hl : l.length < m.declared) :
    ∃ p, (ofLimits limits).feedSlice (m.head ++ l) = (.ok (.pending, (m.head ++ l).length), p) ∧
      p.state = .body := by
  have hc := contentLength_headRequest h
  rw [feedSlice_ofLimits, feedList_head h, headEnd,
    if_neg (by simpa [inLine, hc] using hmax), if_neg (by simp [inLine, hc]; omega), proceed,
    List.length_append]
  exact feedList_body_of_lt rfl (by simpa [inLine, hc] using hl) _

theorem feedSlice_head_of_le (h : m.HeadFits limits) (hmax : m.declared ≤ limits.maxBody)
    (hl : m.declared ≤ l.length) :
    ∃ p, (ofLimits limits).feedSlice (m.head ++ l) =
        (.ok (.complete, m.head.length + m.declared), p) ∧
      p.request = { m.headRequest with body := l.take m.declared } := by
  have hc := contentLength_headRequest h
  rw [feedSlice_ofLimits, feedList_head h, headEnd,
    if_neg (by simpa [inLine, hc] using hmax)]
  by_cases h0 : m.declared = 0
  · rw [if_pos (by simpa [inLine, hc] using h0), h0]
    exact ⟨_, rfl, rfl⟩
  · rw [if_neg (by simpa [inLine, hc] using h0), proceed]
    simpa [inLine, hc] using feedList_body_of_le
      (p := { inLine limits m.headRequest .endLine [] [] 2 with state := .body }) (l := l) rfl
      (by simp [inLine, hc]; omega) (by simpa [inLine, hc] using hl) m.head.length

/-- A message of the grammar is taken, whatever follows it. -/
theorem feedSlice_render (h : m.Fits limits) (l : Bytes) :
    ∃ p, (ofLimits limits).feedSlice (m.render ++ l) = (.ok (.complete, m.render.length), p) ∧
      p.request = m.request := by
  obtain ⟨p, hrun, hreq⟩ := feedSlice_head_of_le (l := m.body ++ l) h.toHeadFits h.body_le
    (by rw [List.length_append, h.body_length]; omega)
  refine ⟨p, ?_, ?_⟩
  · rw [Message.render, List.append_assoc, hrun, List.length_append, h.body_length]
  · rw [hreq, ← h.body_length, List.take_left]
    rfl

end ByteParser

end HttpServer
