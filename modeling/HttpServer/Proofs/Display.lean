import HttpServer.Proofs.Recognition
import HttpServer.Proofs.Utf8
import HttpServer.Proofs.WellFormed

/-!
# Requests are read back

A request is written as a message of the grammar (`Request.renderHead_eq`) : fields that are
empty have no line, known headers go by their usual keys, and the other headers follow in
their order. Read line by line, the message of a well-formed request gives the request again
(`Request.WellFormed.request_message`), and it is within the limits
(`Request.WellFormed.fits`).

The head is ASCII, so a body that is text is all that could get lost on the way through a
text, and it does not (`Request.WellFormed.utf8_display`). What a parser takes is therefore
exactly what can be written down and taken again (`Request.display_encodes`).
-/

namespace HttpServer

/-! ## The head is ASCII -/

namespace Message

variable {m : Message} {limits : Limits}

/-- A head of the grammar is ASCII. -/
theorem HeadFits.ascii (h : m.HeadFits limits) : ∀ b ∈ m.head, isAscii b := by
  have hcrlf : ∀ b ∈ crlf, isAscii b := List.all_eq_true.1 (by decide)
  have hsep : ∀ b ∈ [colon, sp], isAscii b := List.all_eq_true.1 (by decide)
  have hversion : ∀ b ∈ [sp] ++ ByteParser.version, isAscii b := List.all_eq_true.1 (by decide)
  have hmethod : ∀ b ∈ m.method.token, isAscii b := fun b hb =>
    isAscii_of_isAlpha (Method.token_alpha b hb)
  have hpath : ∀ b ∈ m.path, isAscii b := fun b hb =>
    isAscii_of_isPathByte (h.path_valid.bytes b hb)
  have hline : ∀ g ∈ m.headers, ∀ b ∈ g.render, isAscii b := by
    intro g hg b hb
    have hkey := fun hb => isAscii_of_isKeyByte ((h.headers_valid g hg).key_bytes b hb)
    have hvalue := fun hb => isAscii_of_isValueByte ((h.headers_valid g hg).value_bytes b hb)
    simp only [HeaderLine.render, List.mem_append] at hb
    rcases hb with ((hb | hb) | hb) | hb
    · exact hkey hb
    · exact hsep b hb
    · exact hvalue hb
    · exact hcrlf b hb
  intro b hb
  simp only [head, startLine, List.mem_append, List.mem_flatMap] at hb
  grind

end Message

namespace Request

variable {r q : Request} {limits : Limits} {value : Bytes}

/-! ## What a request is written as -/

theorem optionalLine_eq {key : String} {k : KnownHeader} (h : utf8 key = k.key) (value : Bytes) :
    optionalLine key value = (knownLines k value).flatMap HeaderLine.render := by
  unfold optionalLine knownLines
  split
  · rfl
  · rw [h]
    simp [HeaderLine.ofKnown, HeaderLine.render]

theorem lines_eq (f : Fields) :
    f.lines = (f.entries.map fun e => HeaderLine.mk e.1 e.2).flatMap HeaderLine.render := by
  rw [List.flatMap_map]
  rfl

theorem renderHead_eq (r : Request) : r.renderHead = r.message.head := by
  have hversion : utf8 " HTTP/1.1" = [sp] ++ ByteParser.version := by decide
  rw [renderHead, optionalLine_eq (k := .host) rfl, optionalLine_eq (k := .contentType) rfl,
    optionalLine_eq (k := .contentLength) rfl, lines_eq, hversion]
  simp [Message.head, Message.startLine, message, headerLines, lengthValue]

/-! ## Reading it line by line -/

theorem readHeaders_knownLines {k : KnownHeader} {q' : Request} (h0 : value = [] → q = q')
    (h : value ≠ [] → q.withHeader k.key value = q') :
    Message.readHeaders q (knownLines k value) = q' := by
  unfold knownLines
  split
  · exact h0 ‹_›
  · exact h ‹_›

theorem readHeaders_host (hq : q.host = []) :
    Message.readHeaders q (knownLines .host value) = { q with host := value } := by
  refine readHeaders_knownLines ?_ fun _ => ?_
  · rintro rfl
    rw [← hq]
  · simp [withHeader, setHeader?, KnownHeader.ofKey?_key]

theorem readHeaders_contentType (hq : q.contentType = []) :
    Message.readHeaders q (knownLines .contentType value) = { q with contentType := value } := by
  refine readHeaders_knownLines ?_ fun _ => ?_
  · rintro rfl
    rw [← hq]
  · simp [withHeader, setHeader?, KnownHeader.ofKey?_key]

theorem readHeaders_contentLength (hq : q.contentLength = 0) (hr : r.contentLength ≤ wordMax) :
    Message.readHeaders q (knownLines .contentLength r.lengthValue) =
      { q with contentLength := r.contentLength } := by
  by_cases h0 : r.contentLength = 0
  · rw [lengthValue, if_pos h0, h0, ← hq]
    rfl
  · rw [lengthValue, if_neg h0]
    refine readHeaders_knownLines (fun h => absurd h (Decimal.ofNat_ne_nil _)) fun _ => ?_
    simp [withHeader, setHeader?, KnownHeader.ofKey?_key, Decimal.read?_ofNat, Nat.min_eq_left hr]

theorem readHeaders_entries {l : List (Bytes × Bytes)}
    (hl : ∀ e ∈ l, KnownHeader.ofKey? e.1 = none) :
    Message.readHeaders q (l.map fun e => ⟨e.1, e.2⟩) =
      { q with headers := l.foldl (fun (f : Fields) e => f.insert e.1 e.2) q.headers } := by
  induction l generalizing q with
  | nil => rfl
  | cons e l ih =>
    rw [List.forall_mem_cons] at hl
    have hstep : q.withHeader e.1 e.2 = { q with headers := q.headers.insert e.1 e.2 } := by
      simp [withHeader, setHeader?, hl.1]
    rw [List.map_cons, Message.readHeaders_cons, hstep, ih hl.2]
    rfl

namespace WellFormed

variable (h : r.WellFormed limits)
include h

/-- The message of a well-formed request is read into that request. -/
theorem request_message : r.message.request = r := by
  have hkeys : ∀ e ∈ r.headers.entries, KnownHeader.ofKey? e.1 = none := fun e he =>
    KnownHeader.ofKey?_eq_none_iff.2 (h.keys e he).2.2
  rw [Message.request, Message.headRequest, message, headerLines,
    Message.readHeaders_append, Message.readHeaders_append, Message.readHeaders_append,
    Message.startRequest, h.path_clean,
    readHeaders_host rfl, readHeaders_contentType rfl,
    readHeaders_contentLength rfl h.contentLength_le_wordMax, readHeaders_entries hkeys,
    Fields.foldl_insert_entries]

theorem valid_of_mem_headerLines {g : HeaderLine} (hg : g ∈ r.headerLines) : g.Valid := by
  have hknown {k : KnownHeader} {v : Bytes} (hne : v ≠ []) (hv : ∀ b ∈ v, isValueByte b)
      (hd : k = .contentLength → ∀ b ∈ v, isDigit b) : (HeaderLine.ofKnown k v).Valid :=
    ⟨k.key_ne_nil, k.key_bytes, hne, hv, fun hk => hd (by simpa using hk)⟩
  rcases mem_headerLines.1 hg with ⟨hne, rfl⟩ | ⟨hne, rfl⟩ | ⟨-, rfl⟩ | ⟨e, he, rfl⟩
  · exact hknown hne h.host_bytes (by simp)
  · exact hknown hne h.contentType_bytes (by simp)
  · have hdigits : ∀ b ∈ Decimal.ofNat r.contentLength, isDigit b := fun b hb =>
      Decimal.isDigit_of_mem_ofNat hb
    exact hknown (Decimal.ofNat_ne_nil _) (fun b hb => isValueByte_of_isDigit (hdigits b hb))
      fun _ => hdigits
  · obtain ⟨hkey, hkeys, hother⟩ := h.keys e he
    obtain ⟨hvalue, hvalues⟩ := h.values e he
    refine ⟨hkey, hkeys, hvalue, hvalues, fun hk => ?_⟩
    rw [HeaderLine.known?, KnownHeader.ofKey?_eq_none_iff.2 hother] at hk
    cases hk

/-- The message of a well-formed request is in the grammar and within the limits. -/
theorem fits : r.message.Fits limits := by
  have hlines := List.forall_mem_cons.1 h.lines_le
  have hvalid : ∀ g ∈ r.message.headers, g.Valid := fun g hg => h.valid_of_mem_headerLines hg
  have hdeclared : r.message.declared = r.contentLength := by
    rw [← (Message.denotes_request hvalid).contentLength, h.request_message]
  exact
    { method_named := Method.mem_named_of_ne_invalid h.method_ne
      path_valid := ⟨h.path_head, h.path_bytes⟩
      headers_valid := hvalid
      startLine_length := hlines.1
      header_length := List.forall_mem_map.1 hlines.2
      body_length := hdeclared ▸ h.contentLength_eq.symm
      body_le := hdeclared ▸ h.contentLength_le }

/-- Nothing of a well-formed request with a text for a body is lost when it is written as a
text. -/
theorem utf8_display {s : String} (hs : r.body = utf8 s) : utf8 r.display = r.message.render := by
  obtain ⟨t, ht⟩ := Text.exists_utf8_of_ascii h.fits.ascii
  have hbody : r.message.body = utf8 s := hs
  rw [display, render, renderHead_eq, text, hs, Text.decode_utf8, Message.render, hbody, ht,
    ← utf8_append, Text.decode_utf8]

end WellFormed

/-! ## What parsers take -/

open ByteParser in
/-- A request is well formed if it is taken from a source, however the source behaves, or is
completed by feeding bytes to a new parser. Conversely, a well-formed request with a text for
a body can be written down and is taken again, by either parser and with nothing left over,
whatever source delivers its written form. -/
theorem display_encodes (limits : Limits) :
    (∀ (σ : Type) [Source σ] (x x' : Reader σ) (q : Request),
        (LineParser.mk limits).parse x = (.ok q, x') → q.WellFormed limits) ∧
      (∀ (l : Bytes) (b : UInt8) (p p' : ByteParser), Feeds (ofLimits limits) l p →
        p.feed b = (.ok .complete, p') → p'.request.WellFormed limits) ∧
      ∀ (r : Request) (s : String), r.WellFormed limits → r.body = utf8 s →
        (∀ (σ : Type) [Source σ] (P : σ → Bytes → Prop) (x : Reader σ), Source.IsDelivery P →
          x.Holds P (utf8 r.display) →
          ∃ x', (LineParser.mk limits).parse x = (.ok r, x') ∧ x'.Holds P []) ∧
        ∃ p, (ofLimits limits).feedSlice (utf8 r.display) =
          (.ok (.complete, (utf8 r.display).length), p) ∧ p.request = r := by
  refine ⟨fun σ _ x x' q hx => ?_, fun l b p p' hl hb => ?_, fun r s hr hs => ?_⟩
  · obtain ⟨m, hm, rfl⟩ := LineParser.exists_message_of_parse hx
    exact hm.wellFormed
  · have hrun : (ofLimits limits).feedSlice (l ++ [b]) = (.ok (.complete, l.length + 1), p') := by
      rw [ByteParser.feedSlice_ofLimits, feedList_of_feeds hl, feedList, hb, Nat.zero_add]
    obtain ⟨m, tail, hm, hraw, hlen⟩ := fits_of_complete (congrArg Prod.fst hrun)
    have htake : (l ++ [b]).take (l.length + 1) = m.render := by
      rw [hraw, hlen, List.take_left]
    have hreq := (complete_of_fits (by simp) hm htake).2
    rw [hrun] at hreq
    exact hreq ▸ hm.wellFormed
  · rw [hr.utf8_display hs]
    obtain ⟨p, hrun, hreq⟩ := feedSlice_render hr.fits []
    rw [List.append_nil] at hrun
    refine ⟨fun σ _ P x hP hx => ?_, p, hrun, hreq.trans hr.request_message⟩
    rw [← List.append_nil r.message.render] at hx
    simpa [hr.request_message] using LineParser.parse_render hP hr.fits hx

/-- A request with a header of every kind and a body of one character in two bytes. -/
def greeting : Request where
  method := .post
  path := utf8 "/a?b"
  host := utf8 "h"
  contentType := utf8 "text/plain"
  contentLength := 2
  headers := (∅ : Fields).insert (utf8 "X-Note") (utf8 "a: b")
  body := utf8 "é"

/-- Limits that leave no byte to spare for it. -/
def greetingLimits : Limits := { maxBody := 2, maxLine := 24 }

theorem wellFormed_greeting : greeting.WellFormed greetingLimits where
  method_ne := by decide
  path_bytes := List.all_eq_true.1 (by decide)
  path_head := by decide
  path_clean := by decide
  host_bytes := List.all_eq_true.1 (by decide)
  contentType_bytes := List.all_eq_true.1 (by decide)
  keys := by
    intro e he
    obtain rfl : e = (utf8 "X-Note", utf8 "a: b") := List.mem_singleton.1 he
    exact ⟨by decide, List.all_eq_true.1 (by decide), fun k => by cases k <;> decide⟩
  values := by
    intro e he
    obtain rfl : e = (utf8 "X-Note", utf8 "a: b") := List.mem_singleton.1 he
    exact ⟨by decide, List.all_eq_true.1 (by decide)⟩
  contentLength_eq := by decide
  contentLength_le := by decide
  contentLength_le_wordMax := by decide
  lines_le := by
    have hlength : greeting.lengthValue = utf8 "2" := by
      rw [lengthValue, if_neg (by decide), Decimal.ofNat]
      rfl
    rw [headerLines, hlength]
    decide

/-- It is taken again by both parsers, and what they take is well formed. -/
theorem display_encodes_greeting :
    (∃ x' p p',
      (LineParser.mk greetingLimits).parse
          (Reader.withCapacity 0 (MemoryStream.ofInput (utf8 greeting.display))) =
        (.ok greeting, x') ∧ x'.unread = [] ∧
      (ByteParser.ofLimits greetingLimits).feedSlice (utf8 greeting.display) =
        (.ok (.complete, (utf8 greeting.display).length), p) ∧ p.request = greeting ∧
      (ByteParser.inLine greetingLimits (Message.startRequest .get [slash]) .endLine [] [] 1).feed
        lf = (.ok .complete, p') ∧ p'.request.WellFormed greetingLimits) ∧
      greeting.WellFormed greetingLimits := by
  obtain ⟨hlines, hbytes, hencodes⟩ := display_encodes greetingLimits
  obtain ⟨hparse, p, hfeed, hreq⟩ := hencodes greeting "é" wellFormed_greeting rfl
  obtain ⟨x', hx, hleft⟩ := hparse MemoryStream _ _ MemoryStream.isDelivery
    (Reader.holds_withCapacity 0 (MemoryStream.delivers_ofInput _))
  have hhead : (Message.mk .get [slash] [] []).HeadFits greetingLimits :=
    ⟨by decide, ⟨rfl, List.all_eq_true.1 (by decide)⟩, by simp, by decide, by simp⟩
  exact ⟨⟨x', p, _, hx, hleft.unread_eq, hfeed, hreq, rfl,
    hbytes _ lf _ _ (ByteParser.feeds_head hhead) rfl⟩, hlines _ _ _ _ hx⟩

end Request

end HttpServer
