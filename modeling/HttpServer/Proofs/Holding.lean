import HttpServer.Proofs.MessageRun

/-!
# What a parser holds

A parser that is fed bytes stores a word, a key and a body, and its limits bound all three
whatever it is fed. `ByteParser.Situation` lists what a parser can be in the middle of : a
line of the head, with the bytes of the line so far; the body; nothing more, because the
request is complete or was rejected. Every byte leads from one of these to another
(`ByteParser.Situation.feed`), so every use of a parser does (`ByteParser.Situation.useAll`),
and the bounds can be read off each of them (`ByteParser.Situation.withinLimits`).
-/

namespace HttpServer.ByteParser

variable {limits : Limits} {p p' : ByteParser} {b : UInt8} {e : ParseError}

/-! ## Uses -/

/-- A call on a parser. -/
inductive Use where
  /-- One byte is fed. -/
  | feed (b : UInt8)
  /-- Bytes are fed until the request is complete or rejected or they run out. -/
  | feedSlice (l : Bytes)
  /-- The request is handed out. -/
  | takeRequest

/-- The parser after a call. -/
def use (p : ByteParser) : Use → ByteParser
  | .feed b => (p.feed b).2
  | .feedSlice l => (p.feedSlice l).2
  | .takeRequest => p.takeRequest.2

/-- The parser after calls, one after the other. -/
def useAll (p : ByteParser) (l : List Use) : ByteParser := l.foldl use p

/-! ## Rejected bytes -/

/-- The parser was stopped with an error, and holds no more than before. -/
structure Stopped (p : ByteParser) (e : ParseError) (p' : ByteParser) : Prop where
  limits : p'.limits = p.limits
  state : p'.state = .error
  error : p'.error? = some e
  body : p'.body = p.body
  token : p'.token.size ≤ p.token.size
  key : p'.key = p.key

theorem stopped_of_step (h : p.step b = (.error e, p')) (hs : p.state ≠ .error) :
    Stopped p e p' := by
  unfold step at h
  dsimp only at h
  repeat' split at h
  -- a parser that goes on or was stopped before does not get here
  all_goals first
    | contradiction
    | cases h
  all_goals exact ⟨rfl, rfl, rfl, rfl, by simp, rfl⟩

/-- A byte that is rejected stops the parser. -/
theorem stopped_of_feed (h : p.feed b = (.error e, p')) (hs : p.state ≠ .error) :
    Stopped p e p' := by
  unfold feed at h
  dsimp only at h
  split at h
  · split at h
    · cases h
      exact ⟨rfl, rfl, rfl, rfl, Nat.le_refl _, rfl⟩
    · obtain ⟨h1, h2, h3, h4, h5, h6⟩ := stopped_of_step h hs
      exact ⟨h1, h2, h3, h4, h5, h6⟩
  · exact stopped_of_step h hs

/-! ## Situations -/

/-- The parser reads a line of the head and holds no more than the bytes of the line. -/
structure HoldsLine (limits : Limits) (p : ByteParser) : Prop where
  limits_eq : p.limits = limits
  inHead : p.state.inHead = true
  error : p.error? = none
  body : p.body = #[]
  token_key : p.token.size + p.key.length ≤ p.lineLength
  lineLength : p.lineLength ≤ limits.lineCap

theorem ReadingStart.holdsLine {l : Bytes} (h : ReadingStart limits l p)
    (hlen : l.length ≤ limits.lineCap) : HoldsLine limits p where
  limits_eq := h.limits_eq
  inHead := h.inHead
  error := by cases h <;> rfl
  body := by cases h <;> rfl
  token_key := by cases h <;> simp [ofLimits, inLine]
  lineLength := h.lineLength_eq ▸ hlen

theorem ReadingHeader.holdsLine {r : Request} {l : Bytes} (h : ReadingHeader limits r l p)
    (hlen : l.length ≤ limits.lineCap) : HoldsLine limits p where
  limits_eq := h.limits_eq
  inHead := h.inHead
  error := by cases h <;> rfl
  body := by cases h <;> rfl
  token_key := by cases h <;> simp [inLine]; omega
  lineLength := h.lineLength_eq ▸ hlen

/-- The parser that has read a head, with the request and the bytes of the body so far. -/
def afterHead (limits : Limits) (r : Request) (s : ParseState) (body : Array UInt8) : ByteParser :=
  { inLine limits r s [] [] 2 with body }

/-- What a parser can be in the middle of. -/
inductive Situation (limits : Limits) : ByteParser → Prop where
  /-- It reads the start line. -/
  | startLine {l : Bytes} {p : ByteParser} : ReadingStart limits l p →
    l.length ≤ limits.lineCap → Situation limits p
  /-- It reads a header line. -/
  | header {r : Request} {l : Bytes} {p : ByteParser} : ReadingHeader limits r l p →
    l.length ≤ limits.lineCap → Situation limits p
  /-- It reads the body. -/
  | body (r : Request) (body : Array UInt8) : body.size < r.contentLength →
    r.contentLength ≤ limits.maxBody → Situation limits (afterHead limits r .body body)
  /-- The request is complete. -/
  | done (r : Request) (body : Array UInt8) : body.size = r.contentLength →
    r.contentLength ≤ limits.maxBody → Situation limits (afterHead limits r .done body)
  /-- The request was rejected. -/
  | rejected {p : ByteParser} {e : ParseError} : p.limits = limits → p.state = .error →
    p.error? = some e → p.body.size ≤ limits.maxBody →
    p.token.size + p.key.length ≤ limits.lineCap → Situation limits p

namespace Situation

theorem start (limits : Limits) : Situation limits (ofLimits limits) :=
  .startLine .start (Nat.zero_le _)

theorem limits_eq (h : Situation limits p) : p.limits = limits := by
  cases h with
  | startLine h => exact h.limits_eq
  | header h => exact h.limits_eq
  | body | done => rfl
  | rejected h => exact h

theorem of_stopped (h : Stopped p e p') (hlimits : p.limits = limits)
    (hbody : p.body.size ≤ limits.maxBody) (hline : p.token.size + p.key.length ≤ limits.lineCap) :
    Situation limits p' := by
  have htoken := h.token
  refine .rejected (h.limits.trans hlimits) h.state h.error (h.body ▸ hbody) ?_
  rw [h.key]
  omega

/-- A byte of the head that is rejected. -/
theorem of_holdsLine (h : HoldsLine limits p) (hb : p.feed b = (.error e, p')) :
    Situation limits p' := by
  have hs : p.state ≠ .error := fun hs => by
    have hhead := h.inHead
    rw [hs] at hhead
    contradiction
  exact of_stopped (stopped_of_feed hb hs) h.limits_eq (by simp [h.body])
    (Nat.le_trans h.token_key h.lineLength)

/-- A byte of a line that is full already. -/
theorem feed_of_full (h : HoldsLine limits p) (hlen : p.lineLength = limits.lineCap) (b : UInt8) :
    Situation limits (p.feed b).2 := by
  rw [← h.limits_eq] at hlen
  obtain ⟨p', hb⟩ := ByteParser.feed_of_full h.inHead hlen b
  rw [hb]
  exact of_holdsLine h hb

/-- The line end of the empty line. -/
theorem headEnd (limits : Limits) (r : Request) :
    Situation limits (inLine limits r .endLine [] [] 2).headEnd.2 := by
  unfold ByteParser.headEnd
  split
  · exact .rejected rfl rfl rfl (Nat.zero_le _) (Nat.zero_le _)
  · rename_i hmax
    split
    · rename_i h0
      exact .done r #[] h0.symm (Nat.le_of_not_lt hmax)
    · rename_i h0
      exact .body r #[] (Nat.pos_of_ne_zero h0) (Nat.le_of_not_lt hmax)

/-- Every byte leads from one situation to another. -/
theorem feed (h : Situation limits p) (b : UInt8) : Situation limits (p.feed b).2 := by
  cases h with
  | @startLine l _ h hlen =>
    rcases Nat.lt_or_eq_of_le hlen with hlt | hfull
    · have hbyte := h.feed hlt b
      generalize hx : p.feed b = x at hbyte
      cases hbyte with
      | within h' => exact .startLine h' (by simpa [Nat.succ_le_iff] using hlt)
      | line => exact .header (.start _ _) (Nat.zero_le _)
      | rejected => exact of_holdsLine (h.holdsLine hlen) hx
    · exact feed_of_full (h.holdsLine hlen) (h.lineLength_eq.trans hfull) b
  | @header r l _ h hlen =>
    rcases Nat.lt_or_eq_of_le hlen with hlt | hfull
    · have hbyte := h.feed hlt b
      generalize hx : p.feed b = x at hbyte
      cases hbyte with
      | within h' => exact .header h' (by simpa [Nat.succ_le_iff] using hlt)
      | emptyLine => exact headEnd limits r
      | line => exact .header (.start _ _) (Nat.zero_le _)
      | rejected => exact of_holdsLine (h.holdsLine hlen) hx
    · exact feed_of_full (h.holdsLine hlen) (h.lineLength_eq.trans hfull) b
  | body r body hsize hmax =>
    rw [feed_body rfl]
    split
    · rename_i hend
      exact .done r (body.push b) ((Array.size_push b).trans hend) hmax
    · rename_i hend
      refine .body r (body.push b) ?_ hmax
      rw [Array.size_push]
      exact Nat.lt_of_le_of_ne hsize hend
  | done r body hsize hmax =>
    exact .rejected rfl rfl rfl (hsize ▸ hmax) (Nat.zero_le _)
  | @rejected _ e hlimits hs he hbody hline =>
    have hfeed : (p.feed b).2 = p := by simp [ByteParser.feed, step, hs, ParseState.inHead]
    rw [hfeed]
    exact .rejected hlimits hs he hbody hline

theorem feedList (h : Situation limits p) (n : Nat) (l : Bytes) :
    Situation limits (p.feedList n l).2 := by
  induction l generalizing p n with
  | nil => exact h
  | cons b l ih =>
    have hb := h.feed b
    rw [ByteParser.feedList]
    generalize p.feed b = x at hb ⊢
    obtain ⟨_ | _ | _, p'⟩ := x
    · exact hb
    · exact ih hb (n + 1)
    · exact hb

theorem use (h : Situation limits p) (u : Use) : Situation limits (p.use u) := by
  cases u with
  | feed b => exact h.feed b
  | feedSlice l =>
    unfold ByteParser.use feedSlice
    dsimp only
    split
    · exact h
    · exact h.feedList 0 l
  | takeRequest =>
    obtain rfl := h.limits_eq
    exact start p.limits

theorem useAll (h : Situation limits p) (l : List Use) : Situation limits (p.useAll l) := by
  induction l generalizing p with
  | nil => exact h
  | cons u l ih => exact ih (h.use u)

end Situation

/-! ## Bounds -/

/-- What a parser holds is within the limits. -/
structure WithinLimits (limits : Limits) (p : ByteParser) : Prop where
  /-- In the head there is no body, and no more is stored of the line than was read. -/
  head : p.state.inHead = true → p.request.body = [] ∧
    p.token.size + p.key.length ≤ p.lineLength ∧ p.lineLength ≤ min (limits.maxLine + 2) wordMax
  /-- The body is not complete yet. -/
  body : p.state = .body → p.request.body.length < p.request.contentLength ∧
    p.request.contentLength ≤ limits.maxBody
  /-- It is complete after exactly the bytes that are missing. -/
  missing : p.state = .body → ∀ l, (p.feedSlice l).1 =
    if l.length < p.request.contentLength - p.request.body.length then .ok (.pending, l.length)
    else .ok (.complete, p.request.contentLength - p.request.body.length)
  done : p.state = .done → p.request.body.length = p.request.contentLength ∧
    p.request.contentLength ≤ limits.maxBody
  body_le : p.request.body.length ≤ limits.maxBody
  line_le : p.token.size + p.key.length ≤ min (limits.maxLine + 2) wordMax
  error : p.error?.isSome = true ↔ p.state = .error

theorem feedSlice_body (hs : p.state = .body) (hp : p.body.size < p.partialRequest.contentLength)
    (l : Bytes) : (p.feedSlice l).1 =
      if l.length < p.partialRequest.contentLength - p.body.size then .ok (.pending, l.length)
      else .ok (.complete, p.partialRequest.contentLength - p.body.size) := by
  rw [feedSlice, if_neg (by simp [hs])]
  split
  · rename_i hl
    obtain ⟨p', hrun, -⟩ := feedList_body_of_lt hs (l := l) (by omega) 0
    rw [hrun, Nat.zero_add]
  · rename_i hl
    obtain ⟨p', hrun, -⟩ := feedList_body_of_le hs hp (l := l) (by omega) 0
    rw [hrun, Nat.zero_add]

theorem HoldsLine.withinLimits (h : HoldsLine limits p) : WithinLimits limits p := by
  have hbody : p.request.body = [] := congrArg Array.toList h.body
  have hs {s : ParseState} (hs : s.inHead = false) : p.state ≠ s := fun heq => by
    have hhead := h.inHead
    rw [heq, hs] at hhead
    contradiction
  exact {
    head _ := ⟨hbody, h.token_key, h.lineLength⟩
    body hb := absurd hb (hs rfl)
    missing hb := absurd hb (hs rfl)
    done hd := absurd hd (hs rfl)
    body_le := by simp [hbody]
    line_le := Nat.le_trans h.token_key h.lineLength
    error := by
      have herr : p.state ≠ .error := hs rfl
      simp [h.error, herr] }

theorem Situation.withinLimits (h : Situation limits p) : WithinLimits limits p := by
  cases h with
  | startLine h hlen => exact (h.holdsLine hlen).withinLimits
  | header h hlen => exact (h.holdsLine hlen).withinLimits
  | body _ _ hsize hmax =>
    exact {
      head hs := by cases hs
      body _ := ⟨hsize, hmax⟩
      missing _ := feedSlice_body rfl hsize
      done hs := by cases hs
      body_le := Nat.le_trans (Nat.le_of_lt hsize) hmax
      line_le := Nat.zero_le _
      error := ⟨fun h => (by cases h), fun h => (by cases h)⟩ }
  | done _ _ hsize hmax =>
    exact {
      head hs := by cases hs
      body hs := by cases hs
      missing hs := by cases hs
      done _ := ⟨hsize, hmax⟩
      body_le := Nat.le_trans (Nat.le_of_eq hsize) hmax
      line_le := Nat.zero_le _
      error := ⟨fun h => (by cases h), fun h => (by cases h)⟩ }
  | rejected hlimits hs he hbody hline =>
    exact {
      head hh := by simp [hs, ParseState.inHead] at hh
      body hb := by simp [hs] at hb
      missing hb := by simp [hs] at hb
      done hd := by simp [hs] at hd
      body_le := hbody
      line_le := hline
      error := by simp [hs, he] }

/-- However a parser is used, what it holds is within its limits. -/
theorem withinLimits_useAll (limits : Limits) (l : List Use) :
    WithinLimits limits ((ofLimits limits).useAll l) :=
  ((Situation.start limits).useAll l).withinLimits

end HttpServer.ByteParser
