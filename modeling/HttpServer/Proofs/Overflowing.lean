import HttpServer.Proofs.Heads

/-!
# Bodies that there can be no room for

Both parsers make room for a whole body before they take its first byte, and a length that no
piece of memory can have is a panic. `Overflows` says of bytes that they begin with a head that
declares such a length, within the limits. Then neither parser has an answer, and otherwise both
answer as if there were room for every body (`ByteParser.feedSlice?_of_not_overflows`,
`LineParser.parse?_of_not_overflows`). So what holds of `ByteParser.feedSlice` and
`LineParser.parse` holds of the parsers wherever nothing overflows.

The two parsers agree exactly there. `Agreement.Agree` says what it is to take the same requests
and to reject the same bytes, and `Agreement.Determines` how the error of the one follows from the
answer of the other (`Agreement.agree_iff`, `Agreement.determines_iff`).
-/

namespace HttpServer

variable {limits : Limits} {raw l : Bytes} {m : Message}

/-- The bytes begin with a head, within the limits, that declares a body within the limit for
which there can be no room. -/
def Overflows (limits : Limits) (raw : Bytes) : Prop :=
  ∃ (m : Message) (post : Bytes), m.HeadFits limits ∧ raw = m.head ++ post ∧
    m.declared ≤ limits.maxBody ∧ maxPiece < m.declared

/-- Bytes that begin with a head overflow if this head declares too much. -/
theorem overflows_head_iff (h : m.HeadFits limits) :
    Overflows limits (m.head ++ l) ↔ m.declared ≤ limits.maxBody ∧ maxPiece < m.declared := by
  constructor
  · rintro ⟨m', post, h', heq, hover⟩
    have hhead := (Message.head_append_inj h h' heq).1
    rwa [Message.declared_eq_of_head_eq h h' hhead]
  · rintro hover
    exact ⟨m, l, h, rfl, hover⟩

/-- With a limit that a piece of memory can have, nothing overflows. -/
theorem not_overflows_of_maxBody (h : limits.maxBody ≤ maxPiece) : ¬Overflows limits raw := by
  rintro ⟨m, post, -, -, hmax, hover⟩
  omega

/-- A head that declares one byte more than a piece of memory can have. -/
def vast : Message where
  method := .post
  path := [slash]
  headers := [⟨utf8 "Content-Length", utf8 "9223372036854775808"⟩]
  body := []

/-- Limits that admit it. -/
def vastLimits : Limits := { maxBody := 9223372036854775808 }

theorem headFits_vast : vast.HeadFits vastLimits :=
  ⟨by decide, ⟨rfl, List.all_eq_true.1 (by decide)⟩, by
    simp only [vast, List.forall_mem_singleton]
    exact ⟨by decide, List.all_eq_true.1 (by decide), by decide, List.all_eq_true.1 (by decide),
      fun _ => List.all_eq_true.1 (by decide)⟩, by decide, by decide⟩

theorem overflows_vast : Overflows vastLimits vast.head :=
  ⟨vast, [], headFits_vast, (List.append_nil _).symm, by decide, by decide⟩

/-! ## The parser that is fed bytes -/

namespace ByteParser

variable {p p' : ByteParser} {b : UInt8} {n : Nat}

theorem step_of_step? {x : Except ParseError Progress × ByteParser} (h : p.step? b = some x) :
    p.step b = x := by
  unfold step? at h
  dsimp only at h
  split at h
  · obtain ⟨-, -, hx⟩ := Option.map_eq_some_iff.1 h
    exact hx
  · exact Option.some.inj h

theorem feed_of_feed? {x : Except ParseError Progress × ByteParser} (h : p.feed? b = some x) :
    p.feed b = x := by
  unfold feed? at h
  unfold feed
  split
  · rw [if_pos ‹_›] at h
    dsimp only at h ⊢
    split
    · rw [if_pos ‹_›] at h
      exact Option.some.inj h
    · rw [if_neg ‹_›] at h
      exact step_of_step? h
  · rw [if_neg ‹_›] at h
    exact step_of_step? h

/-- The parser has no answer to the byte that ends a head if there can be no room for the body
behind what the parser holds. -/
theorem step?_eq_none_iff :
    p.step? b = none ↔ p.state = .endLine ∧ b = lf ∧
      p.partialRequest.contentLength ≤ p.limits.maxBody ∧ p.partialRequest.contentLength ≠ 0 ∧
      maxPiece < p.body.size + p.partialRequest.contentLength := by
  unfold step?
  dsimp only
  split
  · rename_i hroom
    rw [Option.map_eq_none_iff, reserve?_eq_none_iff]
    simp [hroom]
  · rename_i hroom
    simp only [reduceCtorEq, false_iff]
    rintro ⟨hs, hb, hmax, hne, -⟩
    exact hroom ⟨hs, hb, hmax, hne⟩

theorem feed?_eq_none_iff :
    p.feed? b = none ↔ p.state = .endLine ∧ p.lineLength < p.limits.lineCap ∧ b = lf ∧
      p.partialRequest.contentLength ≤ p.limits.maxBody ∧ p.partialRequest.contentLength ≠ 0 ∧
      maxPiece < p.body.size + p.partialRequest.contentLength := by
  unfold feed?
  split
  · dsimp only
    split
    · rename_i hfull
      simp only [reduceCtorEq, false_iff]
      rintro ⟨-, hlt, -⟩
      omega
    · rename_i hfull
      rw [step?_eq_none_iff]
      have hlt : p.lineLength < p.limits.lineCap := by omega
      simp [hlt]
  · rename_i hbody
    have hs : p.state ≠ .endLine := fun h => by simp [h, ParseState.inHead] at hbody
    rw [step?_eq_none_iff]
    simp [hs]

theorem feedList_of_feedList? {x : Except ParseError (Progress × Nat) × ByteParser}
    (h : p.feedList? n l = some x) : p.feedList n l = x := by
  induction l generalizing p n with
  | nil => exact Option.some.inj h
  | cons b l ih =>
    rw [feedList?] at h
    rw [feedList]
    rcases hb : p.feed? b with _ | ⟨e | _ | _, p'⟩
    · rw [hb] at h
      cases h
    all_goals
      rw [hb] at h
      rw [feed_of_feed? hb]
    · exact Option.some.inj h
    · exact ih h
    · exact Option.some.inj h

/-- Where a parser has an answer, in whatever state, it is the answer with room for every body. -/
theorem feedSlice_of_feedSlice? {x : Except ParseError (Progress × Nat) × ByteParser}
    (h : p.feedSlice? l = some x) : p.feedSlice l = x := by
  unfold feedSlice? at h
  unfold feedSlice
  split at h
  · rw [if_pos ‹_›]
    exact Option.some.inj h
  · rw [if_neg ‹_›]
    exact feedList_of_feedList? h

/-- Bytes that come in two parts are fed one after the other. -/
theorem feedList?_append (p : ByteParser) (n : Nat) (l l' : Bytes) :
    p.feedList? n (l ++ l') =
      match p.feedList? n l with
      | none => none
      | some (.ok (.pending, k), p') => p'.feedList? k l'
      | some x => some x := by
  induction l generalizing p n with
  | nil => rfl
  | cons b l ih =>
    rw [List.cons_append, feedList?, feedList?]
    rcases p.feed? b with _ | ⟨_ | _ | _, p'⟩
    · rfl
    · rfl
    · exact ih p' (n + 1)
    · rfl

/-- There is no answer exactly if a run that stays pending leads to a byte that has none. -/
theorem feedList?_eq_none_iff : p.feedList? n l = none ↔
    ∃ pre post p', l = pre ++ lf :: post ∧ Feeds p pre p' ∧ p'.feed? lf = none := by
  constructor
  · intro h
    induction l generalizing p n with
    | nil => cases h
    | cons b l ih =>
      rw [feedList?] at h
      rcases hb : p.feed? b with _ | ⟨e | _ | _, p'⟩
      · obtain ⟨-, -, rfl, -⟩ := feed?_eq_none_iff.1 hb
        exact ⟨[], l, p, rfl, .nil p, hb⟩
      all_goals rw [hb] at h
      · cases h
      · obtain ⟨pre, post, q, rfl, hf, hq⟩ := ih h
        exact ⟨b :: pre, post, q, rfl, .cons (feed_of_feed? hb) hf, hq⟩
      · cases h
  · rintro ⟨pre, post, p', rfl, hf, hp'⟩
    induction hf generalizing n with
    | nil p =>
      rw [List.nil_append, feedList?, hp']
    | @cons p q _ b l hb _ ih =>
      rw [List.cons_append, feedList?]
      rcases hq : p.feed? b with _ | x
      · rfl
      · obtain rfl := (feed_of_feed? hq).symm.trans hb
        exact ih hp'

theorem feedSlice?_ofLimits (limits : Limits) (l : Bytes) :
    (ofLimits limits).feedSlice? l = (ofLimits limits).feedList? 0 l :=
  if_neg (by simp [ofLimits])

/-- A new parser has no answer exactly if the bytes overflow. -/
theorem feedSlice?_eq_none_iff :
    (ofLimits limits).feedSlice? raw = none ↔ Overflows limits raw := by
  rw [feedSlice?_ofLimits, feedList?_eq_none_iff]
  constructor
  · rintro ⟨pre, post, p, rfl, hf, hp⟩
    obtain ⟨hs, -, -, hmax, -, hover⟩ := feed?_eq_none_iff.1 hp
    have hplace := place_of_feeds hf
    cases hplace with
    | startLine h => simpa [hs, ParseState.inStartLine] using h.inStartLine
    | @header m _ _ hm h =>
      cases h with
      | empty =>
        have hc := contentLength_headRequest hm
        refine ⟨m, post, hm, ?_, ?_, ?_⟩
        · simp [Message.head_eq_concat]
        · exact hc ▸ hmax
        · simpa [inLine, hc] using hover
      | key | keyEnd | blank | value | newLine => cases hs
    | body => cases hs
  · rintro ⟨m, post, hm, rfl, hmax, hover⟩
    have hc := contentLength_headRequest hm
    refine ⟨m.headLines ++ [cr], post, _, ?_, feeds_head hm, feed?_eq_none_iff.2 ?_⟩
    · simp [Message.head_eq_concat]
    · have hshort : 1 < limits.lineCap := Nat.lt_of_lt_of_le (by decide) limits.two_le_lineCap
      refine ⟨rfl, hshort, rfl, hc ▸ hmax, ?_, ?_⟩
      · exact hc ▸ Nat.ne_of_gt (Nat.zero_lt_of_lt hover)
      · simpa [inLine, hc] using hover

/-- Where nothing overflows, a new parser answers as if there were room for every body. -/
theorem feedSlice?_of_not_overflows (h : ¬Overflows limits raw) :
    (ofLimits limits).feedSlice? raw = some ((ofLimits limits).feedSlice raw) := by
  obtain ⟨x, hx⟩ := Option.ne_none_iff_exists'.1 (mt feedSlice?_eq_none_iff.1 h)
  rw [hx, feedSlice_of_feedSlice? hx]

end ByteParser

/-! ## The parser that takes lines -/

namespace LineParser

variable {σ : Type} [Source σ] {P : σ → Bytes → Prop} {Q : σ → Prop} {stop : Option IoKind}
  {p : LineParser} {r : Reader σ} {q : Request} {x : Except ParseError Request × Reader σ}

theorem body_of_body? (h : p.body? r q = some x) : p.body r q = x := by
  unfold body? at h
  split at h
  · obtain ⟨-, -, hx⟩ := Option.map_eq_some_iff.1 h
    exact hx
  · exact Option.some.inj h

theorem body?_eq_none_iff (hq : q.body = []) :
    p.body? r q = none ↔ q.contentLength ≤ p.limits.maxBody ∧ maxPiece < q.contentLength := by
  unfold body?
  split
  · rename_i hroom
    rw [Option.map_eq_none_iff, reserve?_eq_none_iff]
    simp [hroom, hq]
  · rename_i hroom
    simp only [reduceCtorEq, false_iff]
    rintro ⟨hmax, hover⟩
    exact hroom ⟨hmax, Nat.ne_of_gt (Nat.zero_lt_of_lt hover)⟩

theorem parse_of_parse? (h : p.parse? r = some x) : p.parse r = x := by
  unfold parse? at h
  unfold parse
  generalize p.head r = y at h
  rcases y with ⟨e | q, r'⟩
  · exact Option.some.inj h
  · exact body_of_body? h

/-- However the source gives the bytes and stops, there is no answer exactly if the bytes
overflow. -/
theorem parse?_eq_none_iff (hP : Source.IsSupply P Q stop) (hr : r.Holds P raw) :
    (LineParser.mk limits).parse? r = none ↔ Overflows limits raw := by
  unfold parse?
  constructor
  · rcases hhead : (LineParser.mk limits).head r with ⟨e | q, r'⟩
    · simp
    · obtain ⟨m, post, hm, rfl, rfl, -⟩ := exists_head_of_head hP hr hhead
      intro h
      have hc := ByteParser.contentLength_headRequest hm
      obtain ⟨hmax, hover⟩ := (body?_eq_none_iff m.body_headRequest).1 h
      rw [overflows_head_iff hm, ← hc]
      exact ⟨hmax, hover⟩
  · rintro ⟨m, post, hm, rfl, hover⟩
    obtain ⟨r', hhead, -⟩ := head_of_headFits hP hm hr
    rw [← ByteParser.contentLength_headRequest hm] at hover
    rw [hhead]
    exact (body?_eq_none_iff m.body_headRequest).2 hover

/-- Where nothing overflows, the answer is that with room for every body. -/
theorem parse?_of_not_overflows (hP : Source.IsSupply P Q stop) (hr : r.Holds P raw)
    (h : ¬Overflows limits raw) :
    (LineParser.mk limits).parse? r = some ((LineParser.mk limits).parse r) := by
  obtain ⟨x, hx⟩ := Option.ne_none_iff_exists'.1 (mt (parse?_eq_none_iff hP hr).1 h)
  rw [hx, parse_of_parse? hx]

theorem parse?_ofInput_eq_none_iff (limits : Limits) (capacity : Nat) (raw : Bytes) :
    (LineParser.mk limits).parse? (Reader.withCapacity capacity (MemoryStream.ofInput raw)) =
      none ↔ Overflows limits raw :=
  parse?_eq_none_iff MemoryStream.isDelivery.isSupply
    (Reader.holds_withCapacity capacity (MemoryStream.delivers_ofInput raw))

end LineParser

/-! ## Where the two parsers agree -/

namespace Agreement

open ByteParser

/-- Both parsers make the same of these bytes. -/
structure Agree (raw : Bytes) (lines : Option (Except ParseError Request × Reader MemoryStream))
    (bytes : Option (Except ParseError (Progress × Nat) × ByteParser)) : Prop where
  /-- One takes a request exactly if the other does, and it is the same request. -/
  ok_iff (q : Request) : (∃ r, lines = some (.ok q, r)) ↔
    ∃ n p, bytes = some (.ok (.complete, n), p) ∧ p.request = q
  /-- Both use the same bytes : those that the reader does not have left. -/
  used {q : Request} {r : Reader MemoryStream} {n : Nat} {p : ByteParser} :
    lines = some (.ok q, r) → bytes = some (.ok (.complete, n), p) →
      n = raw.length - r.unread.length ∧ raw = raw.take n ++ r.unread
  /-- In every other case both reject. -/
  rejected : (∀ q r, lines ≠ some (.ok q, r)) → (∃ e r, lines = some (.error e, r)) ∧
    ((∃ e p, bytes = some (.error e, p)) ∨ ∃ p, bytes = some (.ok (.pending, raw.length), p))

/-- The answer of the parser that is fed bytes determines that of the parser that takes lines.
Where the one is still pending, the other has the error that the end of the input means, and a
declared length that is too large is the same error for both. A malformed line is an error of the
same kind, unless the bytes end inside the line and within its limit : then the parser that takes
lines fails to read. There is no other way for it to fail. -/
def Determines (limits : Limits) (raw : Bytes) (lines : Option (Except ParseError Request)) :
    Option (Except ParseError (Progress × Nat) × ByteParser) → Prop
  | some (.ok (.complete, _), p) => lines = some (.ok p.request)
  | some (.ok (.pending, n), p) => n = raw.length ∧ lines = some (.error p.endError)
  | some (.error (.bodyTooLarge n), _) => lines = some (.error (.bodyTooLarge n))
  | some (.error e, _) =>
    (e.code = -2 ∨ e.code = -3) ∧ ∃ line e', (∀ l, RejectsIn limits raw l e ↔ l = line) ∧
      lines = some (.error e') ∧
      if lf ∉ line ∧ line.length ≤ min (limits.maxLine + 2) wordMax then e' = .read
      else e'.code = e.code
  | none => False

variable {x : Except ParseError Request × Reader MemoryStream}
  {y : Except ParseError (Progress × Nat) × ByteParser}

theorem Verdict.agree (h : Verdict MemoryStream.Delivers limits raw x y) :
    Agree raw (some x) (some y) := by
  cases h with
  | @complete m tail r p hm hraw hr hreq =>
    refine ⟨fun q => by simp [hreq], fun hx hy => ?_, fun h => absurd rfl (h _ _)⟩
    cases hx
    cases hy
    rw [hr.unread_eq, hraw]
    simp
  | failed hf => cases hf <;> exact ⟨by simp, by simp, by simp⟩

theorem Verdict.determines (h : Verdict MemoryStream.Delivers limits raw x y) :
    Determines limits raw (some x.1) (some y) := by
  cases h with
  | complete _ _ _ hreq => exact congrArg (some ∘ Except.ok) hreq.symm
  | failed hf =>
    cases hf with
    | pending => exact ⟨rfl, rfl⟩
    | tooLarge => rfl
    | @rejected e _ line p hline hcode he =>
      cases e with
      | bodyTooLarge n => simp [ParseError.code] at hcode
      | read | startLine | header | bodyLength =>
        refine ⟨hcode, line, _, fun l => ⟨fun hl => hl.unique hline, ?_⟩, rfl, he⟩
        rintro rfl
        exact hline

/-- Where nothing overflows, the answers are those with room for every body. -/
theorem answers_of_not_overflows (capacity : Nat) (h : ¬Overflows limits raw) :
    ∃ x y, (LineParser.mk limits).parse?
        (Reader.withCapacity capacity (MemoryStream.ofInput raw)) = some x ∧
      (ofLimits limits).feedSlice? raw = some y ∧ Verdict MemoryStream.Delivers limits raw x y :=
  ⟨_, _, LineParser.parse?_of_not_overflows MemoryStream.isDelivery.isSupply
    (Reader.holds_withCapacity capacity (MemoryStream.delivers_ofInput raw)) h,
    feedSlice?_of_not_overflows h, parse_verdict_ofInput limits capacity raw⟩

/-- The two parsers take the same requests, use the same bytes and reject the same inputs exactly
where the bytes do not overflow. Where they do, both panic. -/
theorem agree_iff (limits : Limits) (capacity : Nat) (raw : Bytes) :
    let lines :=
      (LineParser.mk limits).parse? (Reader.withCapacity capacity (MemoryStream.ofInput raw))
    let bytes := (ofLimits limits).feedSlice? raw
    (Agree raw lines bytes ↔ ¬Overflows limits raw) ∧ (lines = none ↔ Overflows limits raw) ∧
      (bytes = none ↔ Overflows limits raw) := by
  intro lines bytes
  have hlines : lines = none ↔ Overflows limits raw :=
    LineParser.parse?_ofInput_eq_none_iff limits capacity raw
  refine ⟨⟨fun h hover => ?_, fun h => ?_⟩, hlines, feedSlice?_eq_none_iff⟩
  · obtain ⟨⟨e, r, he⟩, -⟩ := h.rejected (by simp [hlines.2 hover])
    simp [hlines.2 hover] at he
  · obtain ⟨x, y, hx, hy, hverdict⟩ := answers_of_not_overflows capacity h
    unfold lines bytes
    rw [hx, hy]
    exact hverdict.agree

/-- Nothing exceeds the limits, and yet neither parser has an answer. -/
theorem not_agree_vast :
    let raw := utf8 "POST / HTTP/1.1\r\nContent-Length: 9223372036854775808\r\n\r\n"
    let limits : Limits := { maxBody := 9223372036854775808 }
    let lines := (LineParser.mk limits).parse? (Reader.withCapacity 4096 (MemoryStream.ofInput raw))
    let bytes := (ofLimits limits).feedSlice? raw
    ¬Agree raw lines bytes ∧ lines = none ∧ bytes = none := by
  intro raw limits lines bytes
  have hover : Overflows limits raw := overflows_vast
  have hlines : lines = none := (LineParser.parse?_ofInput_eq_none_iff limits 4096 raw).2 hover
  refine ⟨fun h => ?_, hlines, feedSlice?_eq_none_iff.2 hover⟩
  obtain ⟨⟨e, r, he⟩, -⟩ := h.rejected (by simp [hlines])
  cases hlines.symm.trans he

/-- The answer of the parser that is fed bytes determines the error of the parser that takes lines
exactly where the bytes do not overflow. Where they do, the parser that takes lines panics. -/
theorem determines_iff (limits : Limits) (capacity : Nat) (raw : Bytes) :
    let lines := ((LineParser.mk limits).parse?
      (Reader.withCapacity capacity (MemoryStream.ofInput raw))).map Prod.fst
    let bytes := (ofLimits limits).feedSlice? raw
    (Determines limits raw lines bytes ↔ ¬Overflows limits raw) ∧
      (lines = none ↔ Overflows limits raw) := by
  intro lines bytes
  have hlines : lines = none ↔ Overflows limits raw :=
    Option.map_eq_none_iff.trans (LineParser.parse?_ofInput_eq_none_iff limits capacity raw)
  refine ⟨⟨fun h hover => ?_, fun h => ?_⟩, hlines⟩
  · have hbytes : bytes = none := feedSlice?_eq_none_iff.2 hover
    rw [hbytes] at h
    exact h
  · obtain ⟨x, y, hx, hy, hverdict⟩ := answers_of_not_overflows capacity h
    unfold lines bytes
    rw [hx, hy]
    exact hverdict.determines

/-- The parser that takes lines fails in another way than with an error. -/
theorem not_determines_vast :
    let raw := utf8 "POST / HTTP/1.1\r\nContent-Length: 9223372036854775808\r\n\r\n"
    let limits : Limits := { maxBody := 9223372036854775808 }
    let lines := ((LineParser.mk limits).parse?
      (Reader.withCapacity 4096 (MemoryStream.ofInput raw))).map Prod.fst
    ¬Determines limits raw lines ((ofLimits limits).feedSlice? raw) ∧ lines = none := by
  intro raw limits lines
  have hover : Overflows limits raw := overflows_vast
  have hlines : lines = none :=
    Option.map_eq_none_iff.2 ((LineParser.parse?_ofInput_eq_none_iff limits 4096 raw).2 hover)
  refine ⟨?_, hlines⟩
  rw [feedSlice?_eq_none_iff.2 hover]
  exact id

end Agreement

end HttpServer
