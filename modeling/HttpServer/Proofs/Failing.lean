import HttpServer.Proofs.Places
import HttpServer.Proofs.Receiving

/-!
# What a failure to read means

A stream may end or fail after any byte of a request. The error is then to tell how far the
request had come (`Classifies`) : a failure to read means that no head was complete, and a
request that is cut off inside its body has a body of the wrong length.

The parser that takes lines tells so however its source stops (`LineParser.classifies_parse`),
wherever it has an answer. A reception tells so where the stream ends. Where the stream fails
inside the body, the answer of a reception is a failure to read, as if there had been no head, and
this is the only way in which an answer goes wrong (`Reception.classifies_advanceEach_iff`).
-/

namespace HttpServer

variable {limits : Limits} {raw : Bytes}

/-! ## Requests that are cut off -/

/-- The bytes stop inside the body : a whole head, within the limits, declares more of them than
follow it. -/
def CutInBody (limits : Limits) (raw : Bytes) : Prop :=
  ∃ (m : Message) (post : Bytes), m.HeadFits limits ∧ m.declared ≤ limits.maxBody ∧
    raw = m.head ++ post ∧ post.length < m.declared

/-- The answer to these bytes, after which the source stopped, tells how far the request had
come. -/
structure Classifies {α : Type} (limits : Limits) (raw : Bytes) (x : Except ParseError α) :
    Prop where
  /-- A failure to read means that no head was complete. -/
  read : x = .error .read → ¬HasHeadEnd raw
  /-- A request that is cut off inside its body has a body of the wrong length. -/
  body : CutInBody limits raw → x = .error .bodyLength

theorem CutInBody.hasHeadEnd (h : CutInBody limits raw) : HasHeadEnd raw := by
  obtain ⟨m, post, -, -, rfl, -⟩ := h
  exact m.hasHeadEnd_head.append post

theorem classifies_of_ne_read {α : Type} {x : Except ParseError α} (hx : x ≠ .error .read)
    (hraw : ¬CutInBody limits raw) : Classifies limits raw x :=
  ⟨fun h => absurd h hx, fun h => absurd h hraw⟩

/-! ## What the end of the input means -/

namespace ByteParser

variable {p : ByteParser} {x : Except ParseError (Progress × Nat)} {e : ParseError}

/-- A parser that is fed bytes that stop inside the body reads the body then. -/
theorem feedList_of_cutInBody (h : CutInBody limits raw) :
    ∃ p, (ofLimits limits).feedList 0 raw = (.ok (.pending, raw.length), p) := by
  obtain ⟨m, post, hm, hmax, rfl, hlt⟩ := h
  obtain ⟨p, hp, -⟩ := feedSlice_head_of_lt hm hmax hlt
  rw [feedSlice_ofLimits] at hp
  exact ⟨p, hp⟩

theorem not_cutInBody_of_feedList (h : (ofLimits limits).feedList 0 raw = (x, p))
    (hx : ∀ n, x ≠ .ok (.pending, n)) : ¬CutInBody limits raw := by
  intro hraw
  obtain ⟨q, hq⟩ := feedList_of_cutInBody hraw
  exact hx _ (Prod.mk.inj (h.symm.trans hq)).1

/-- A request that is pending when the input ends has no whole head, or is cut off inside its
body, and the end of the input means just that. -/
theorem endError_of_pending {n : Nat}
    (h : (ofLimits limits).feedList 0 raw = (.ok (.pending, n), p)) :
    p.endError = .read ∧ ¬HasHeadEnd raw ∨ p.endError = .bodyLength ∧ CutInBody limits raw := by
  have hplace := place_of_feeds (feeds_of_feedList h)
  have hhead (hs : p.state.inHead = true) : p.endError = .read ∧ ¬HasHeadEnd raw :=
    ⟨if_neg fun h => by simp [h, ParseState.inHead] at hs, hplace.not_hasHeadEnd hs⟩
  clear h
  cases hplace with
  | startLine h => exact .inl (hhead h.inHead)
  | header _ h => exact .inl (hhead h.inHead)
  | body hm hmax hlt => exact .inr ⟨rfl, _, _, hm, hmax, rfl, hlt⟩

/-- The parser itself does not fail to read. -/
theorem ne_read_of_feedList (h : (ofLimits limits).feedList 0 raw = (.error e, p)) : e ≠ .read := by
  have hverdict := Agreement.parse_verdict_ofInput limits 0 raw
  rw [feedSlice_ofLimits, h] at hverdict
  generalize (LineParser.mk limits).parse (Reader.withCapacity 0 (MemoryStream.ofInput raw)) = x
    at hverdict
  cases hverdict with
  | failed hf =>
    cases hf with
    | tooLarge => simp
    | rejected _ hcode =>
      rintro rfl
      simp [ParseError.code] at hcode

/-- The parser is not stopped inside the body. -/
theorem feedSlice_head_ne_error {m : Message} (hm : m.HeadFits limits)
    (hmax : m.declared ≤ limits.maxBody) (l : Bytes) :
    (ofLimits limits).feedSlice (m.head ++ l) ≠ (.error e, p) := by
  intro h
  rcases Nat.lt_or_ge l.length m.declared with hl | hl
  · obtain ⟨q, hq, -⟩ := feedSlice_head_of_lt hm hmax hl
    cases h.symm.trans hq
  · obtain ⟨q, hq, -⟩ := feedSlice_head_of_le hm hmax hl
    cases h.symm.trans hq

/-- What the end of the input means for a pending request tells how far it had come. -/
theorem classifies_endError {α : Type} {n : Nat}
    (h : (ofLimits limits).feedList 0 raw = (.ok (.pending, n), p)) :
    Classifies (α := α) limits raw (.error p.endError) := by
  rcases endError_of_pending h with ⟨he, hraw⟩ | ⟨he, -⟩
  · exact ⟨fun _ => hraw, fun hc => absurd hc.hasHeadEnd hraw⟩
  · exact ⟨fun h => by simp [he] at h, fun _ => congrArg Except.error he⟩

/-- A line in which the parser is stopped and that does not end belongs to a head that is not
complete. -/
theorem not_hasHeadEnd_of_rejectsIn {line : Bytes} (h : Agreement.RejectsIn limits raw line e)
    (hl : lf ∉ line) : ¬HasHeadEnd raw := by
  obtain ⟨p, ⟨done, rfl, -, hd⟩, hst⟩ := h
  obtain ⟨q, hq⟩ := hst.feedList (0 + done.length)
  rw [← feedList_of_feeds hd, ← feedSlice_ofLimits] at hq
  have hplace := place_of_feeds hd
  refine not_hasHeadEnd_append (hplace.not_hasHeadEnd ?_) hl
  clear hd hst
  cases hplace with
  | startLine h => exact h.inHead
  | header _ h => exact h.inHead
  | body hm hmax =>
    rw [List.append_assoc] at hq
    exact absurd hq (feedSlice_head_ne_error hm hmax _)

end ByteParser

/-! ## Taking lines from a source that stops -/

namespace LineParser

/-- The answer to bytes that are all in memory tells how far the request had come. -/
theorem classifies_parse_ofInput (limits : Limits) (capacity : Nat) (raw : Bytes) :
    Classifies limits raw ((LineParser.mk limits).parse
      (Reader.withCapacity capacity (MemoryStream.ofInput raw))).1 := by
  have hverdict := Agreement.parse_verdict_ofInput limits capacity raw
  rw [ByteParser.feedSlice_ofLimits] at hverdict
  generalize (LineParser.mk limits).parse (Reader.withCapacity capacity (MemoryStream.ofInput raw))
    = x at hverdict ⊢
  generalize hy : (ByteParser.ofLimits limits).feedList 0 raw = y at hverdict
  cases hverdict with
  | complete =>
    exact classifies_of_ne_read (by simp) (ByteParser.not_cutInBody_of_feedList hy (by simp))
  | failed hf =>
    cases hf with
    | pending => exact ByteParser.classifies_endError hy
    | tooLarge =>
      exact classifies_of_ne_read (by simp) (ByteParser.not_cutInBody_of_feedList hy (by simp))
    | rejected hrejects hcode he =>
      refine ⟨fun h => ?_, fun hc =>
        absurd hc (ByteParser.not_cutInBody_of_feedList hy (by simp))⟩
      obtain rfl := Except.error.inj h
      split_ifs at he with hl
      · exact ByteParser.not_hasHeadEnd_of_rejectsIn hrejects hl.1
      · rw [← he] at hcode
        simp [ParseError.code] at hcode

variable {σ : Type} [Source σ] {P : σ → Bytes → Prop} {Q : σ → Prop} {stop : Option IoKind}

/-- However the source stops, the answer tells how far the request had come. -/
theorem classifies_parse (hP : Source.IsSupply P Q stop) {s : σ} (hs : P s raw) (capacity : Nat) :
    Classifies limits raw ((LineParser.mk limits).parse (Reader.withCapacity capacity s)).1 := by
  have hmemory := classifies_parse_ofInput limits capacity raw
  have hfollows := parse_follows (p := ⟨limits⟩) hP MemoryStream.isDelivery
    ⟨raw, List.suffix_rfl, Reader.holds_withCapacity capacity hs,
      Reader.holds_withCapacity capacity (MemoryStream.delivers_ofInput raw)⟩
  generalize (LineParser.mk limits).parse (Reader.withCapacity capacity s) = x at hfollows ⊢
  generalize (LineParser.mk limits).parse
    (Reader.withCapacity capacity (MemoryStream.ofInput raw)) = y at hfollows hmemory
  cases hfollows with
  | ok => exact hmemory
  | error he =>
    cases he with
    | same => exact hmemory
    | garbled s =>
      -- The other run comes to the end of the bytes inside a line of the head.
      refine classifies_of_ne_read (fun h => ?_) fun hc => by simpa using hmemory.body hc
      exact absurd (Except.error.inj h) (by unfold ParseError.atState; split_ifs <;> simp)

end LineParser

/-! ## Receiving from a stream that stops -/

namespace Reception

variable {stop : Option IoKind}

/-- Feeding all that is supplied tells how far the request had come, unless the stream fails
inside the body. -/
theorem classifies_answer_iff (hstop : stop ≠ some .wouldBlock) :
    Classifies limits raw (answer stop ((ByteParser.ofLimits limits).feedList 0 raw)) ↔
      stop = none ∨ ¬CutInBody limits raw := by
  rcases hy : (ByteParser.ofLimits limits).feedList 0 raw with ⟨e | ⟨_ | _, n⟩, p⟩
  · have hraw := ByteParser.not_cutInBody_of_feedList hy (by simp)
    have he := ByteParser.ne_read_of_feedList hy
    exact iff_of_true (classifies_of_ne_read (fun h => he (Except.error.inj h)) hraw) (.inr hraw)
  · rcases stop with _ | kind
    · exact iff_of_true (ByteParser.classifies_endError hy) (.inl rfl)
    · have hread : answer (some kind) (.ok (.pending, n), p) = .error .read :=
        if_neg fun h => hstop (congrArg some h)
      rw [hread]
      constructor
      · exact fun h => .inr fun hc => absurd (h.body hc) (by simp)
      · rintro (h | hraw)
        · cases h
        · rcases ByteParser.endError_of_pending hy with ⟨-, hhead⟩ | ⟨-, hc⟩
          · exact ⟨fun _ => hhead, fun hc => absurd hc hraw⟩
          · exact absurd hc hraw
  · have hraw := ByteParser.not_cutInBody_of_feedList hy (by simp)
    exact iff_of_true (classifies_of_ne_read (by simp [answer]) hraw) (.inr hraw)

/-- The answer of a new reception that is advanced once for every arrival. -/
theorem advanceEach?_ofStream (limits : Limits) (peer? : Option Address) (s₀ : Stream)
    {ss : List Stream} (hss : ∀ s ∈ ss, s.supply.2 = some .wouldBlock) (last : Stream) :
    ((ofStream limits s₀ peer?).advanceEach? (ss ++ [last])).map Prod.fst =
      ((ByteParser.ofLimits limits).feedSlice? (suppliedBy (ss ++ [last]))).map
        (answer last.supply.2) := by
  have hidle := idle_ofStream limits s₀ peer?
  obtain ⟨reader, hadv⟩ := advanceEach_of_supply hss last hidle 0
  rw [advanceEach?_of_supply hss last hidle 0, hadv, ByteParser.feedSlice?_ofLimits]
  change (((ByteParser.ofLimits limits).feedList? 0 _).map _).map _ = _
  rcases hy : (ByteParser.ofLimits limits).feedList? 0 (suppliedBy (ss ++ [last])) with _ | y
  · rfl
  · rw [← ByteParser.feedList_of_feedList? hy]
    rfl

/-- However a source gives these bytes and stops, the answer of the parser that takes lines tells
how far the request had come, and there is one exactly if the bytes do not overflow. The answer of
a reception that is advanced until it is no longer pending tells so exactly if, besides, the
stream ends or the request is not cut off inside its body. -/
theorem classifies_advanceEach_iff (limits : Limits) (peer? : Option Address) (s₀ : Stream)
    {ss : List Stream} {last : Stream} (hss : ∀ s ∈ ss, s.supply.2 = some .wouldBlock)
    (hlast : last.supply.2 ≠ some .wouldBlock) :
    let raw := suppliedBy (ss ++ [last])
    (∀ (σ : Type) [Source σ] (P : σ → Bytes → Prop) (Q : σ → Prop) (stop : Option IoKind),
        Source.IsSupply P Q stop → ∀ s, P s raw → ∀ capacity,
          ((∃ x r, (LineParser.mk limits).parse? (Reader.withCapacity capacity s) = some (x, r) ∧
            Classifies limits raw x) ↔ ¬Overflows limits raw)) ∧
      ((∃ x r, (ofStream limits s₀ peer?).advanceEach? (ss ++ [last]) = some (x, r) ∧
          Classifies limits raw x) ↔
        ¬Overflows limits raw ∧ (last.supply.2 = none ∨ ¬CutInBody limits raw)) := by
  intro raw
  have hlate := advanceEach?_ofStream limits peer? s₀ hss last
  refine ⟨fun σ _ P Q stop hP s hs capacity => ⟨?_, fun hraw => ?_⟩, ?_, ?_⟩
  · rintro ⟨x, r, hx, -⟩ hover
    cases ((LineParser.parse?_eq_none_iff hP (Reader.holds_withCapacity capacity hs)).2
      hover).symm.trans hx
  · exact ⟨_, _, LineParser.parse?_of_not_overflows hP (Reader.holds_withCapacity capacity hs) hraw,
      LineParser.classifies_parse hP hs capacity⟩
  · rintro ⟨x, r, hx, h⟩
    have hraw : ¬Overflows limits raw := fun hover => by
      rw [hx, ByteParser.feedSlice?_eq_none_iff.2 hover] at hlate
      cases hlate
    rw [hx, ByteParser.feedSlice?_of_not_overflows hraw, ByteParser.feedSlice_ofLimits] at hlate
    obtain rfl : x = answer _ _ := Option.some.inj hlate
    exact ⟨hraw, (classifies_answer_iff hlast).1 h⟩
  · rintro ⟨hraw, hstop⟩
    rw [ByteParser.feedSlice?_of_not_overflows hraw, ByteParser.feedSlice_ofLimits] at hlate
    obtain ⟨⟨x, r⟩, hx, rfl⟩ := Option.map_eq_some_iff.1 hlate
    exact ⟨_, r, hx, (classifies_answer_iff hlast).2 hstop⟩

/-- A message whose body is three bytes short. -/
def upload : Message where
  method := .post
  path := [slash]
  headers := [⟨utf8 "Content-Length", utf8 "5"⟩]
  body := utf8 "hi"

theorem cutInBody_upload : CutInBody {} upload.render := by
  have hfits : upload.HeadFits {} :=
    ⟨by decide, ⟨rfl, List.all_eq_true.1 (by decide)⟩, by
      simp only [upload, List.forall_mem_singleton]
      exact ⟨by decide, List.all_eq_true.1 (by decide), by decide, List.all_eq_true.1 (by decide),
        fun _ => List.all_eq_true.1 (by decide)⟩, by decide, by decide⟩
  exact ⟨upload, upload.body, hfits, by decide, rfl, by decide⟩

/-- A stream that gives these bytes after an interruption and is then reset. -/
def resetAfter (l : Bytes) : Stream :=
  .script { arrivals := [.failure .interrupted, .chunk l, .failure .connectionReset] } {} 0

theorem supply_resetAfter (l : Bytes) (hl : l ≠ []) :
    (resetAfter l).supply = (l, some .connectionReset) := by
  simp [resetAfter, Stream.supply, ScriptSource.supply, ScriptSource.supplyOf, hl]

/-- The message arrives in two parts, and the connection is reset inside the body : a body of the
wrong length for one parser, but not for the reception. -/
theorem classifies_advanceEach_iff_upload :
    let ss : List Stream := [.memory (.pending (upload.render.take 9))]
    let last := resetAfter (upload.render.drop 9)
    let raw := suppliedBy (ss ++ [last])
    (∀ s ∈ ss, s.supply.2 = some .wouldBlock) ∧ last.supply.2 ≠ some .wouldBlock ∧
      (∃ r, (LineParser.mk {}).parse? (Reader.withCapacity 0 (resetAfter upload.render)) =
        some (.error .bodyLength, r)) ∧
      ¬∃ x r, (ofStream {} (.memory {}) none).advanceEach? (ss ++ [last]) = some (x, r) ∧
        Classifies {} raw x := by
  intro ss last raw
  have hlast : last.supply = (upload.render.drop 9, some .connectionReset) :=
    supply_resetAfter _ (by decide)
  have hss : ∀ s ∈ ss, s.supply.2 = some .wouldBlock := by simp [ss]; rfl
  have hraw : suppliedBy (ss ++ [last]) = upload.render := by
    change upload.render.take 9 ++ (last.supply.1 ++ []) = _
    rw [hlast, List.append_nil, List.take_append_drop]
  have hne : last.supply.2 ≠ some .wouldBlock := by simp [hlast]
  have h := classifies_advanceEach_iff {} none (.memory {}) hss hne
  unfold raw
  rw [hraw] at h ⊢
  refine ⟨hss, hne, ?_, fun hc => ?_⟩
  · obtain ⟨x, r, hx, hclass⟩ := (h.1 Stream _ _ _ (Stream.isSupply _) _
      (supply_resetAfter _ (by decide)) 0).2 (not_overflows_of_maxBody (by decide))
    rw [hclass.body cutInBody_upload] at hx
    exact ⟨r, hx⟩
  · obtain ⟨-, h0 | h0⟩ := h.2.1 hc
    · simp [hlast] at h0
    · exact h0 cutInBody_upload

/-- What comes over the connection is a whole head, and yet the answer is a failure to read. -/
theorem not_classifies_resetAfter :
    let last := resetAfter upload.render
    ∃ x r, (ofStream {} last none).advanceEach? [last] = some (x, r) ∧
      ¬Classifies {} upload.render x ∧ x = .error .read ∧ HasHeadEnd upload.render := by
  intro last
  have hsupply : last.supply = (upload.render, some .connectionReset) :=
    supply_resetAfter _ (by decide)
  have hraw : suppliedBy [last] = upload.render := by
    rw [suppliedBy, List.flatMap_singleton, hsupply]
  have hnone : ∀ s ∈ ([] : List Stream), s.supply.2 = some .wouldBlock := by simp
  have hlate := advanceEach?_ofStream {} none last hnone last
  have hanswer : answer (some .connectionReset)
      ((ByteParser.ofLimits {}).feedSlice upload.render) = .error .read := by decide +kernel
  rw [List.nil_append, hraw, hsupply,
    ByteParser.feedSlice?_of_not_overflows (not_overflows_of_maxBody (by decide)),
    Option.map_some, hanswer] at hlate
  obtain ⟨⟨x, r⟩, hx, rfl⟩ := Option.map_eq_some_iff.1 hlate
  have hhead : HasHeadEnd upload.render := by decide
  exact ⟨_, r, hx, fun h => h.read rfl hhead, rfl, hhead⟩

end Reception

end HttpServer
