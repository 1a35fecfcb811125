import HttpServer.Parse.Bytewise

/-!
# Feeding a stretch of bytes

`ByteParser.Feeds` relates two parsers when feeding some bytes to the first leaves the
request pending and gives the second. It composes, so a run of any length is put together
from the words and lines it consists of, and `ByteParser.feedList_of_feeds` hands the result
to `feedList`.

What happens inside one line of the head is described by a relation between the bytes of the
line so far and the parser (`ByteParser.LineInvariant`). From what one byte does to it
follows what a whole line does (`LineInvariant.run`, `LineInvariant.run_overlong`) : either
all bytes are taken or the parser stops at one of them (`ByteParser.StopsAt`).
-/

namespace HttpServer

namespace ByteParser

variable {p p' p'' : ByteParser} {l l' : Bytes} {b : UInt8} {e : ParseError}

/-! ## Runs that stay pending -/

/-- Feeding the bytes leaves the request pending. -/
inductive Feeds : ByteParser → Bytes → ByteParser → Prop where
  | nil (p : ByteParser) : Feeds p [] p
  | cons {p p' p'' : ByteParser} {b : UInt8} {l : Bytes} :
    p.feed b = (.ok .pending, p') → Feeds p' l p'' → Feeds p (b :: l) p''

theorem Feeds.single (h : p.feed b = (.ok .pending, p')) : Feeds p [b] p' :=
  .cons h (.nil p')

theorem Feeds.append (h : Feeds p l p') (h' : Feeds p' l' p'') : Feeds p (l ++ l') p'' := by
  induction h with
  | nil p => exact h'
  | cons hb _ ih => exact .cons hb (ih h')

theorem Feeds.of_append (h : Feeds p (l ++ l') p'') : ∃ p', Feeds p l p' ∧ Feeds p' l' p'' := by
  induction l generalizing p with
  | nil => exact ⟨p, .nil p, h⟩
  | cons b l ih =>
    obtain _ | ⟨hb, h⟩ := h
    obtain ⟨p', hf, h'⟩ := ih h
    exact ⟨p', .cons hb hf, h'⟩

theorem Feeds.unique (h : Feeds p l p') (h' : Feeds p l p'') : p' = p'' := by
  induction h with
  | nil p =>
    cases h'
    rfl
  | cons hb _ ih =>
    obtain _ | ⟨hb', h'⟩ := h'
    obtain ⟨-, rfl⟩ := Prod.mk.inj (hb.symm.trans hb')
    exact ih h'

theorem feedList_of_feeds (h : Feeds p l p') (n : Nat) (l' : Bytes) :
    p.feedList n (l ++ l') = p'.feedList (n + l.length) l' := by
  induction h generalizing n with
  | nil p => rfl
  | cons hb _ ih =>
    rw [List.cons_append, feedList, hb]
    simp only [ih]
    rw [List.length_cons, Nat.add_assoc, Nat.add_comm 1]

/-- Bytes after which the request is pending were all fed. -/
theorem feeds_of_feedList {n k : Nat} (h : p.feedList n l = (.ok (.pending, k), p')) :
    Feeds p l p' := by
  induction l generalizing p n with
  | nil =>
    cases h
    exact .nil _
  | cons b l ih =>
    rw [feedList] at h
    rcases hb : p.feed b with ⟨e | _ | _, q⟩
    · rw [hb] at h
      cases h
    · rw [hb] at h
      exact .cons hb (ih h)
    · rw [hb] at h
      cases h

/-- Bytes that come in two parts are fed one after the other. -/
theorem feedList_append (p : ByteParser) (n : Nat) (l l' : Bytes) :
    p.feedList n (l ++ l') =
      match p.feedList n l with
      | (.ok (.pending, k), p') => p'.feedList k l'
      | x => x := by
  induction l generalizing p n with
  | nil => rfl
  | cons b l ih =>
    rw [List.cons_append, feedList, feedList]
    rcases p.feed b with ⟨_ | _ | _, p'⟩
    · rfl
    · exact ih p' (n + 1)
    · rfl

/-- A parser whose request is not complete is fed all bytes. -/
theorem feedSlice_of_ne_done (hs : p.state ≠ .done) (l : Bytes) : p.feedSlice l = p.feedList 0 l :=
  if_neg hs

theorem feedSlice_ofLimits (limits : Limits) (l : Bytes) :
    (ofLimits limits).feedSlice l = (ofLimits limits).feedList 0 l :=
  feedSlice_of_ne_done (by simp [ofLimits]) l

/-! ## Runs that are stopped -/

/-- Feeding the bytes is stopped at a byte of their first line. -/
def StopsAt (p : ByteParser) (l : Bytes) (e : ParseError) : Prop :=
  ∃ pre b post p' p'', l = pre ++ b :: post ∧ lf ∉ pre ∧ Feeds p pre p' ∧
    p'.feed b = (.error e, p'')

theorem StopsAt.append (h : StopsAt p l e) (l' : Bytes) : StopsAt p (l ++ l') e := by
  obtain ⟨pre, b, post, p', p'', rfl, hpre, hf, hb⟩ := h
  exact ⟨pre, b, post ++ l', p', p'', by simp, hpre, hf, hb⟩

theorem StopsAt.cons (h : StopsAt p' l e) (hb : p.feed b = (.ok .pending, p')) (hlf : b ≠ lf) :
    StopsAt p (b :: l) e := by
  obtain ⟨pre, c, post, p1, p2, rfl, hpre, hf, hc⟩ := h
  exact ⟨b :: pre, c, post, p1, p2, rfl, by simp [hpre, Ne.symm hlf], .cons hb hf, hc⟩

theorem Feeds.stopsAt (h : Feeds p l p') (hl : lf ∉ l) (hb : p'.feed b = (.error e, p'')) :
    StopsAt p (l ++ [b]) e :=
  ⟨l, b, [], p', p'', rfl, hl, h, hb⟩

theorem StopsAt.feedList (h : StopsAt p l e) (n : Nat) : ∃ p', p.feedList n l = (.error e, p') := by
  obtain ⟨pre, b, post, p', p'', rfl, -, hf, hb⟩ := h
  refine ⟨p'', ?_⟩
  rw [feedList_of_feeds hf, ByteParser.feedList, hb]

/-- A parser that is stopped in a line does not take the line. -/
theorem StopsAt.not_feeds {pre post : Bytes} (h : StopsAt p (pre ++ lf :: post) e) :
    ¬Feeds p (pre ++ [lf]) p' := by
  intro hf
  obtain ⟨pre', b, post', q, q', heq, hpre, hq, hb⟩ := h
  obtain ⟨t, ht⟩ : ∃ t, pre ++ [lf] = pre' ++ b :: t := by
    rcases List.append_eq_append_iff.1 heq with ⟨c, rfl, hc⟩ | ⟨c, rfl, hc⟩
    · -- the line cannot end before the byte, as no byte before is a line end
      rcases c with _ | ⟨x, c⟩
      · obtain ⟨rfl, -⟩ := List.cons.inj hc
        exact ⟨[], by simp⟩
      · obtain ⟨rfl, -⟩ := List.cons.inj hc
        simp at hpre
    · rcases c with _ | ⟨x, c⟩
      · obtain ⟨rfl, -⟩ := List.cons.inj hc
        exact ⟨[], by simp⟩
      · obtain ⟨rfl, -⟩ := List.cons.inj hc
        exact ⟨c ++ [lf], by simp⟩
  rw [ht] at hf
  obtain ⟨q₁, hq₁, hf⟩ := hf.of_append
  obtain rfl := hq.unique hq₁
  obtain _ | ⟨hb', -⟩ := hf
  have := (Prod.mk.inj (hb.symm.trans hb')).1
  contradiction

/-! ## Bytes of the head -/

theorem feed_of_room (hs : p.state.inHead = true) (hlen : p.lineLength < p.limits.lineCap)
    (b : UInt8) : p.feed b = { p with lineLength := p.lineLength + 1 }.step b := by
  rw [feed, if_pos hs]
  exact if_neg (Nat.not_lt.2 hlen)

theorem feed_of_full (hs : p.state.inHead = true) (hlen : p.lineLength = p.limits.lineCap)
    (b : UInt8) : ∃ p', p.feed b = (.error (.atState p.overlongState), p') := by
  rw [feed, if_pos hs]
  refine ⟨_, if_pos ?_⟩
  simp only [hlen]
  omega

/-- The parser at a place of a line, with the request, the key, the word and the number of
bytes of the line so far. -/
def inLine (limits : Limits) (r : Request) (s : ParseState) (key token : Bytes) (n : Nat) :
    ByteParser :=
  { limits, state := s, partialRequest := r, key, token := token.toArray, lineLength := n }

section InLine

variable {limits : Limits} {r : Request} {s : ParseState} {key token : Bytes} {n : Nat}

theorem feed_inLine (hs : s.inHead = true) (hn : n < limits.lineCap) (b : UInt8) :
    (inLine limits r s key token n).feed b = (inLine limits r s key token (n + 1)).step b :=
  feed_of_room hs hn b

@[simp] theorem gather_inLine (b : UInt8) (s' : ParseState) :
    (inLine limits r s key token n).gather b s' =
      (.ok .pending, inLine limits r s' key (token ++ [b]) n) := by
  simp [inLine, gather]

/-- Bytes that are gathered at one place come to stand at the end of the word. -/
theorem feeds_gather {c : UInt8 → Bool} (hs : s.inHead = true)
    (hstep : ∀ (token : Bytes) (n : Nat) (b : UInt8), c b = true →
      (inLine limits r s key token n).step b = (inLine limits r s key token n).gather b s)
    {l : Bytes} (hl : ∀ b ∈ l, c b) (hn : n + l.length ≤ limits.lineCap) :
    Feeds (inLine limits r s key token n) l
      (inLine limits r s key (token ++ l) (n + l.length)) := by
  induction l generalizing token n with
  | nil => simpa using Feeds.nil _
  | cons b l ih =>
    rw [List.length_cons] at hn
    have hfeed : (inLine limits r s key token n).feed b =
        (.ok .pending, inLine limits r s key (token ++ [b]) (n + 1)) := by
      rw [feed_inLine hs (by omega), hstep _ _ b (hl b (by simp)), gather_inLine]
    have htail : Feeds (inLine limits r s key (token ++ [b]) (n + 1)) l
        (inLine limits r s key (token ++ [b] ++ l) (n + 1 + l.length)) :=
      ih (fun c hc => hl c (by simp [hc])) (by omega)
    rw [List.append_assoc, List.singleton_append, Nat.add_right_comm] at htail
    exact .cons hfeed htail

/-! What one byte does at each place of a line. -/

theorem step_start (b : UInt8) :
    (inLine limits r .start key token n).step b =
      if isAlpha b then (.ok .pending, inLine limits r .method key (token ++ [b]) n)
      else (inLine limits r .start key token n).fail .start := by
  rw [← gather_inLine (s := .start)]
  rfl

theorem step_method (b : UInt8) :
    (inLine limits r .method key token n).step b =
      if b = sp then
        if Method.ofToken token = .invalid then
          (inLine limits { r with method := .invalid } .method key [] n).fail .method
        else (.ok .pending, inLine limits { r with method := .ofToken token } .space1 key [] n)
      else if isAlpha b then (.ok .pending, inLine limits r .method key (token ++ [b]) n)
      else (inLine limits r .method key token n).fail .method := by
  rw [← gather_inLine (s := .method)]
  simp only [step, inLine, proceed]
  split
  · split <;> simp [*]
  · rfl

theorem step_space1 (b : UInt8) :
    (inLine limits r .space1 key token n).step b =
      if b = slash then (.ok .pending, inLine limits r .path key (token ++ [b]) n)
      else (inLine limits r .space1 key token n).fail .space1 := by
  rw [← gather_inLine (s := .space1)]
  rfl

theorem step_path (b : UInt8) :
    (inLine limits r .path key token n).step b =
      if b = sp then
        (.ok .pending, inLine limits { r with path := Path.clean token } .space2 key [] n)
      else if isPathByte b then (.ok .pending, inLine limits r .path key (token ++ [b]) n)
      else (inLine limits r .path key token n).fail .path := by
  rw [← gather_inLine (s := .path)]
  rfl

theorem step_space2 (b : UInt8) :
    (inLine limits r .space2 key token n).step b =
      if b = 72 then (.ok .pending, inLine limits r .version key (token ++ [b]) n)
      else (inLine limits r .space2 key token n).fail .space2 := by
  rw [← gather_inLine (s := .space2)]
  rfl

theorem step_version (b : UInt8) :
    (inLine limits r .version key token n).step b =
      if token.length = 8 ∧ b = cr then (.ok .pending, inLine limits r .newLine key [] n)
      else if version[token.length]? = some b then
        (.ok .pending, inLine limits r .version key (token ++ [b]) n)
      else (inLine limits r .version key token n).fail .version := by
  rw [← gather_inLine (s := .version)]
  rfl

theorem step_newLine (b : UInt8) :
    (inLine limits r .newLine key token n).step b =
      if b = lf then (.ok .pending, inLine limits r .headerKey key token 0)
      else (inLine limits r .newLine key token n).fail .newLine := rfl

theorem step_headerKey (b : UInt8) :
    (inLine limits r .headerKey key token n).step b =
      if b = cr ∧ token = [] then (.ok .pending, inLine limits r .endLine key token n)
      else if b = colon ∧ token ≠ [] then (.ok .pending, inLine limits r .colon token [] n)
      else if isKeyByte b then (.ok .pending, inLine limits r .headerKey key (token ++ [b]) n)
      else (inLine limits r .headerKey key token n).fail .headerKey := by
  rw [← gather_inLine (s := .headerKey)]
  simp [step, inLine, proceed]

theorem step_colon (b : UInt8) :
    (inLine limits r .colon key token n).step b =
      if b = sp then (.ok .pending, inLine limits r .space3 key token n)
      else (inLine limits r .colon key token n).fail .colon := rfl

theorem step_space3 (b : UInt8) :
    (inLine limits r .space3 key token n).step b =
      if isValueByte b then (.ok .pending, inLine limits r .headerValue key (token ++ [b]) n)
      else (inLine limits r .space3 key token n).fail .space3 := by
  rw [← gather_inLine (s := .space3)]
  rfl

theorem step_headerValue (b : UInt8) :
    (inLine limits r .headerValue key token n).step b =
      if b = cr then
        match r.setHeader? key token with
        | none => (inLine limits r .headerValue key token n).fail .headerValue
        | some r' => (.ok .pending, inLine limits r' .headerNewLine [] [] n)
      else if isValueByte b then
        (.ok .pending, inLine limits r .headerValue key (token ++ [b]) n)
      else (inLine limits r .headerValue key token n).fail .headerValue := by
  rw [← gather_inLine (s := .headerValue)]
  rfl

theorem step_headerNewLine (b : UInt8) :
    (inLine limits r .headerNewLine key token n).step b =
      if b = lf then (.ok .pending, inLine limits r .headerKey key token 0)
      else (inLine limits r .headerNewLine key token n).fail .headerNewLine := rfl

/-- What the line end of the empty line leads to. -/
def headEnd (p : ByteParser) : Except ParseError Progress × ByteParser :=
  if p.limits.maxBody < p.partialRequest.contentLength then
    p.reject (.bodyTooLarge p.partialRequest.contentLength)
  else if p.partialRequest.contentLength = 0 then p.finish
  else p.proceed .body

theorem step_endLine (b : UInt8) :
    (inLine limits r .endLine key token n).step b =
      if b = lf then (inLine limits r .endLine key token n).headEnd
      else (inLine limits r .endLine key token n).fail .endLine := rfl

end InLine

/-! ## Lines of the head -/

/-- A relation between the bytes of a line so far and the parser that has read them is kept
by every byte that is taken and is no line end. A byte that is not taken, for whatever
reason, is an error with the given code. -/
structure LineInvariant (limits : Limits) (code : Int) (R : Bytes → ByteParser → Prop) :
    Prop where
  step {l : Bytes} {p : ByteParser} {b : UInt8} : R l p → b ≠ lf → l.length < limits.lineCap →
    (∃ p', p.feed b = (.ok .pending, p') ∧ R (l ++ [b]) p') ∨
      ∃ e p', p.feed b = (.error e, p') ∧ e.code = code
  full {l : Bytes} {p : ByteParser} (b : UInt8) : R l p → l.length = limits.lineCap →
    ∃ e p', p.feed b = (.error e, p') ∧ e.code = code
  inHead {l : Bytes} {p : ByteParser} : R l p → p.state.inHead = true

namespace LineInvariant

variable {limits : Limits} {code : Int} {R : Bytes → ByteParser → Prop}

/-- Bytes of a line that are within the limit are all taken, or one of them is not. -/
theorem run (hR : LineInvariant limits code R) {l₀ : Bytes} (h : R l₀ p) (hl : lf ∉ l)
    (hlen : l₀.length + l.length ≤ limits.lineCap) :
    (∃ p', Feeds p l p' ∧ R (l₀ ++ l) p') ∨ ∃ e, StopsAt p l e ∧ e.code = code := by
  induction l generalizing l₀ p with
  | nil => exact .inl ⟨p, .nil p, by simpa using h⟩
  | cons b l ih =>
    rw [List.mem_cons, not_or] at hl
    rw [List.length_cons] at hlen
    rcases hR.step h (Ne.symm hl.1) (by omega) with ⟨p', hb, h'⟩ | ⟨e, p', hb, he⟩
    · rcases ih h' hl.2 (by simp; omega) with ⟨p'', hf, h''⟩ | ⟨e, hst, he⟩
      · exact .inl ⟨p'', .cons hb hf, by simpa using h''⟩
      · exact .inr ⟨e, hst.cons hb (Ne.symm hl.1), he⟩
    · exact .inr ⟨e, ⟨[], b, l, p, p', rfl, by simp, .nil p, hb⟩, he⟩

/-- A line that goes on beyond the limit is not taken. -/
theorem run_overlong (hR : LineInvariant limits code R) (h : R [] p)
    (hl : lf ∉ l.take limits.lineCap) (hlen : limits.lineCap < l.length) :
    ∃ e, StopsAt p l e ∧ e.code = code := by
  have hsplit : l = l.take limits.lineCap ++ l.drop limits.lineCap :=
    (List.take_append_drop _ _).symm
  obtain ⟨b, post, hdrop⟩ := List.exists_cons_of_ne_nil (l := l.drop limits.lineCap)
    (by simpa using hlen)
  have htake : (l.take limits.lineCap).length = limits.lineCap := by
    rw [List.length_take]
    omega
  rcases hR.run h hl (by simp [htake]) with ⟨p', hf, h'⟩ | ⟨e, hst, he⟩
  · obtain ⟨e, p'', hb, he⟩ := hR.full b h' (by simp [htake])
    exact ⟨e, ⟨_, b, post, p', p'', hdrop ▸ hsplit, hl, hf, hb⟩, he⟩
  · rw [hsplit]
    exact ⟨e, hst.append _, he⟩

end LineInvariant

end ByteParser

end HttpServer
