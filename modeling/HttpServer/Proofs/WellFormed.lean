import HttpServer.Proofs.LineGrammar
import HttpServer.Proofs.Paths

/-!
# Well-formed requests

Not every request can come of parsing : a request that does has a path in its written form,
values made of the bytes of values, a body of the stated length, and header lines that are
within the limits when it is written down. `Request.WellFormed` says so.

Whatever the parser that reads lines takes from a source, of whatever kind, is a message of
the grammar (`LineParser.exists_message_of_parse`), and the request that a message of the
grammar is read into is well formed (`Message.Fits.wellFormed`). None of its lines is longer
than the one it was read from : a path loses slashes, a known key keeps its length, and a
length is written without leading zeros.
-/

namespace HttpServer

/-! ## Known keys -/

namespace KnownHeader

/-- The key that a header with a field of its own is written with. -/
def key : KnownHeader → Bytes
  | contentLength => utf8 "Content-Length"
  | contentType => utf8 "Content-Type"
  | host => utf8 "Host"

theorem ofKey?_key (k : KnownHeader) : ofKey? k.key = some k := by
  cases k <;> decide

theorem key_ne_nil (k : KnownHeader) : k.key ≠ [] := by
  cases k <;> decide

theorem key_bytes (k : KnownHeader) : ∀ b ∈ k.key, isKeyByte b := by
  cases k <;> exact List.all_eq_true.1 (by decide)

/-- The key that is written is one spelling of the key that is read. -/
theorem ofKey?_eq (l : Bytes) :
    ofKey? l =
      if eqIgnoreCase l contentLength.key then some contentLength
      else if eqIgnoreCase l contentType.key then some contentType
      else if eqIgnoreCase l host.key then some host
      else none := rfl

theorem eqIgnoreCase_of_ofKey? {l : Bytes} {k : KnownHeader} (h : ofKey? l = some k) :
    eqIgnoreCase l k.key = true := by
  rw [ofKey?_eq] at h
  repeat' split at h
  all_goals cases h
  all_goals assumption

theorem ofKey?_eq_none_iff {l : Bytes} :
    ofKey? l = none ↔ ∀ k : KnownHeader, eqIgnoreCase l k.key = false := by
  rw [ofKey?_eq]
  constructor
  · intro h k
    repeat' split at h
    all_goals cases h
    cases k <;> exact eq_false_of_ne_true ‹_›
  · intro h
    simp [h]

end KnownHeader

namespace HeaderLine

variable {h : HeaderLine}

/-- The line of a known header with a value. -/
def ofKnown (k : KnownHeader) (value : Bytes) : HeaderLine := ⟨k.key, value⟩

@[simp] theorem known?_ofKnown (k : KnownHeader) (value : Bytes) :
    (ofKnown k value).known? = some k :=
  k.ofKey?_key

theorem length_render (h : HeaderLine) : h.render.length = h.key.length + h.value.length + 4 := by
  simp [render, crlf]
  omega

/-- A known header takes as much room under its usual key as under any spelling of it. -/
theorem length_render_ofKnown {k : KnownHeader} (hk : h.known? = some k) (value : Bytes) :
    (ofKnown k value).render.length = h.key.length + value.length + 4 := by
  rw [length_render, ofKnown, length_eq_of_eqIgnoreCase (KnownHeader.eqIgnoreCase_of_ofKey? hk)]

end HeaderLine

/-! ## Requests as they are written -/

namespace Request

/-- The line of a known header, or none for an empty value. -/
def knownLines (k : KnownHeader) (value : Bytes) : List HeaderLine :=
  if value = [] then [] else [.ofKnown k value]

/-- The value of the length line, empty for the length zero. -/
def lengthValue (r : Request) : Bytes :=
  if r.contentLength = 0 then [] else Decimal.ofNat r.contentLength

/-- The header lines that the request is written with. -/
def headerLines (r : Request) : List HeaderLine :=
  knownLines .host r.host ++ knownLines .contentType r.contentType
    ++ knownLines .contentLength r.lengthValue ++ r.headers.entries.map fun e => ⟨e.1, e.2⟩

/-- The message that the request is written as. -/
def message (r : Request) : Message :=
  { method := r.method, path := r.path, headers := r.headerLines, body := r.body }

/-- The request could have been read by a parser with these limits. -/
structure WellFormed (limits : Limits) (r : Request) : Prop where
  method_ne : r.method ≠ .invalid
  path_bytes : ∀ b ∈ r.path, isPathByte b
  path_head : r.path.head? = some slash
  path_clean : Path.clean r.path = r.path
  host_bytes : ∀ b ∈ r.host, isValueByte b
  contentType_bytes : ∀ b ∈ r.contentType, isValueByte b
  keys : ∀ e ∈ r.headers.entries, e.1 ≠ [] ∧ (∀ b ∈ e.1, isKeyByte b) ∧
    ∀ k : KnownHeader, eqIgnoreCase e.1 k.key = false
  values : ∀ e ∈ r.headers.entries, e.2 ≠ [] ∧ ∀ b ∈ e.2, isValueByte b
  contentLength_eq : r.contentLength = r.body.length
  contentLength_le : r.contentLength ≤ limits.maxBody
  /-- The length is a count. -/
  contentLength_le_wordMax : r.contentLength ≤ wordMax
  /-- Each line of the head, its line end included, is within the limit. -/
  lines_le : ∀ line ∈ Message.startLine r.method r.path :: r.headerLines.map HeaderLine.render,
    line.length ≤ min (limits.maxLine + 2) wordMax

theorem mem_knownLines {k : KnownHeader} {value : Bytes} {h : HeaderLine} :
    h ∈ knownLines k value ↔ value ≠ [] ∧ h = .ofKnown k value := by
  unfold knownLines
  split <;> simp [*]

/-- The kinds of lines that a request is written with. -/
theorem mem_headerLines {r : Request} {h : HeaderLine} :
    h ∈ r.headerLines ↔ r.host ≠ [] ∧ h = .ofKnown .host r.host ∨
      r.contentType ≠ [] ∧ h = .ofKnown .contentType r.contentType ∨
      r.contentLength ≠ 0 ∧ h = .ofKnown .contentLength (Decimal.ofNat r.contentLength) ∨
      ∃ e ∈ r.headers.entries, h = ⟨e.1, e.2⟩ := by
  have hlength : r.lengthValue ≠ [] ↔ r.contentLength ≠ 0 := by
    unfold lengthValue
    split <;> simp [*, Decimal.ofNat_ne_nil]
  simp only [headerLines, List.mem_append, mem_knownLines, hlength, List.mem_map, or_assoc]
  refine or_congr_right (or_congr_right (or_congr (and_congr_right fun h0 => ?_) ?_))
  · rw [lengthValue, if_neg h0]
  · simp only [eq_comm]

end Request

/-! ## Messages are read into well-formed requests -/

namespace Message

variable {m : Message} {limits : Limits}

/-- The value of a known header comes from a line of the message. -/
theorem HeadFits.known_line (h : m.HeadFits limits) {k : KnownHeader} {v : Bytes}
    (hv : v = (lastValue? (fun g => g.known? = some k) m.headers).getD []) :
    (∀ b ∈ v, isValueByte b) ∧
      (v ≠ [] → (HeaderLine.ofKnown k v).render.length ≤ min (limits.maxLine + 2) wordMax) := by
  cases hlast : lastValue? (fun g => g.known? = some k) m.headers with
  | none =>
    rw [hlast] at hv
    simp [hv]
  | some w =>
    obtain ⟨g, hg, hk, rfl⟩ := lastValue?_eq_some hlast
    rw [hlast, Option.getD_some] at hv
    subst hv
    refine ⟨(h.headers_valid g hg).value_bytes, fun _ => ?_⟩
    rw [HeaderLine.length_render_ofKnown (by simpa using hk), ← HeaderLine.length_render]
    exact h.header_length g hg

/-- The length line is no longer than the one the length was read from, leading zeros and
numbers beyond `wordMax` included. -/
theorem HeadFits.length_line (h : m.HeadFits limits) (h0 : m.declared ≠ 0) :
    (HeaderLine.ofKnown .contentLength (Decimal.ofNat m.declared)).render.length ≤
      min (limits.maxLine + 2) wordMax := by
  cases hlast : lastValue? (fun g => g.known? = some .contentLength) m.headers with
  | none => simp [declared, writtenLength, hlast] at h0
  | some w =>
    obtain ⟨g, hg, hk, rfl⟩ := lastValue?_eq_some hlast
    have hvalid := h.headers_valid g hg
    have hdeclared : m.declared ≤ Decimal.value g.value := by
      simp only [declared, writtenLength, hlast, Option.map_some, Option.getD_some]
      exact Nat.min_le_left _ _
    have hlen := Decimal.length_ofNat_le_of_le_value hvalid.value_ne_nil
      (hvalid.length_digits (by simpa using hk)) hdeclared
    have hfit := h.header_length g hg
    rw [HeaderLine.length_render] at hfit
    rw [HeaderLine.length_render_ofKnown (by simpa using hk)]
    omega

/-- Every other header comes from a line of the message, too. -/
theorem Denotes.header_line {r : Request} (h : m.Denotes r) {e : Bytes × Bytes}
    (he : e ∈ r.headers.entries) :
    ∃ g ∈ m.headers, g.known? = none ∧ g = ⟨e.1, e.2⟩ := by
  have hget := Fields.get?_of_mem he
  rw [h.headers] at hget
  obtain ⟨g, hg, hp, hv⟩ := lastValue?_eq_some hget
  obtain ⟨hk, hkey⟩ := of_decide_eq_true hp
  exact ⟨g, hg, hk, by rw [← hkey, ← hv]⟩

theorem length_startLine_le {method : Method} {path path' : Bytes} (h : path <+: path') :
    (startLine method path).length ≤ (startLine method path').length := by
  have hlen := h.length_le
  simp only [startLine, List.length_append]
  omega

/-- The request that a message of the grammar is read into is well formed. -/
theorem Fits.wellFormed (h : m.Fits limits) : m.request.WellFormed limits := by
  have hd := denotes_request h.headers_valid
  generalize m.request = r at hd
  have hshort := Path.clean_prefix h.path_valid.head
  have hlength : r.contentLength = r.body.length := by
    rw [hd.contentLength, hd.body, h.body_length]
  refine
    { method_ne := fun hm => Method.invalid_not_mem_named (hm ▸ hd.method ▸ h.method_named)
      path_bytes := fun b hb => h.path_valid.bytes b (hshort.subset (hd.path ▸ hb))
      path_head := hd.path ▸ Path.head?_clean _
      path_clean := by rw [hd.path, Path.clean_clean]
      host_bytes := (h.known_line hd.host).1
      contentType_bytes := (h.known_line hd.contentType).1
      keys := fun e he => ?_
      values := fun e he => ?_
      contentLength_eq := hlength
      contentLength_le := hd.contentLength ▸ h.body_le
      contentLength_le_wordMax := hd.contentLength ▸ Nat.min_le_right _ _
      lines_le := ?_ }
  · obtain ⟨g, hg, hk, rfl⟩ := hd.header_line he
    have hvalid := h.headers_valid _ hg
    exact ⟨hvalid.key_ne_nil, hvalid.key_bytes, KnownHeader.ofKey?_eq_none_iff.1 hk⟩
  · obtain ⟨g, hg, -, rfl⟩ := hd.header_line he
    have hvalid := h.headers_valid _ hg
    exact ⟨hvalid.value_ne_nil, hvalid.value_bytes⟩
  · rw [List.forall_mem_cons, List.forall_mem_map]
    refine ⟨?_, fun g hg => ?_⟩
    · rw [hd.method, hd.path]
      exact Nat.le_trans (length_startLine_le hshort) h.startLine_length
    -- The lines are those of the known headers, the length, and the other headers.
    · rcases Request.mem_headerLines.1 hg with ⟨hne, rfl⟩ | ⟨hne, rfl⟩ | ⟨hne, rfl⟩ | ⟨e, he, rfl⟩
      · exact (h.known_line hd.host).2 hne
      · exact (h.known_line hd.contentType).2 hne
      · rw [hd.contentLength] at hne ⊢
        exact h.length_line hne
      · obtain ⟨g, hg, -, rfl⟩ := hd.header_line he
        exact h.header_length _ hg

end Message

/-! ## What is taken from a source -/

namespace LineParser

variable {σ : Type} [Source σ] {p : LineParser} {r r' : Reader σ} {q q' : Request}

theorem length_le_of_nextLine {s : ParseState} {line : Bytes}
    (h : p.nextLine r s = (.ok line, r')) : line.length ≤ p.limits.lineCap := by
  unfold nextLine at h
  split at h
  · rename_i hr
    obtain ⟨h1, -⟩ := Prod.mk.inj h
    obtain rfl := Except.ok.inj h1
    exact Reader.length_le_of_scanLine hr
  · cases h
  · cases h

/-- The lines up to the end of a head are header lines of the grammar within the limits. -/
theorem exists_lines_of_headers (h : p.headers r q = (.ok q', r')) :
    ∃ hs, (∀ g ∈ hs, HeaderLine.Valid g) ∧ (∀ g ∈ hs, g.render.length ≤ p.limits.lineCap) ∧
      q' = Message.readHeaders q hs := by
  induction hn : r.remaining using Nat.strongRecOn generalizing r q with
  | ind n ih =>
    rw [headers_eq] at h
    rcases hline : p.nextLine r .headerValue with ⟨e | line, r''⟩
    · rw [hline] at h
      cases h
    rw [hline] at h
    dsimp only at h
    split at h
    · cases h
      exact ⟨[], by simp, by simp, rfl⟩
    split at h
    · cases h
    split at h
    · cases h
    · rename_i q'' hok
      obtain ⟨g, hg, rfl, rfl⟩ := headerLine_eq_ok_iff.1 hok
      obtain ⟨hs, hv, hlen, rfl⟩ := ih _ (hn ▸ remaining_nextLine hline) h rfl
      have hfit := length_le_of_nextLine hline
      exact ⟨g :: hs, by simpa [hg] using hv, by simpa [hfit] using hlen, rfl⟩

/-- A body is taken if it has the declared length and that is within the limit. -/
theorem exists_body_of_body (hb : q.body = []) (h : p.body r q = (.ok q', r')) :
    ∃ l, q' = { q with body := l } ∧ l.length = q.contentLength ∧
      q.contentLength ≤ p.limits.maxBody := by
  unfold body at h
  split at h
  · cases h
  rename_i hmax
  split at h
  · rename_i h0
    cases h
    exact ⟨[], by rw [← hb], h0.symm, Nat.le_of_not_lt hmax⟩
  split at h
  · rename_i l r₁ hread
    cases h
    exact ⟨l, rfl, Reader.length_of_readExact hread, Nat.le_of_not_lt hmax⟩
  · cases h

/-- A head that is taken is one of the grammar. -/
theorem exists_message_of_head (h : p.head r = (.ok q, r')) :
    ∃ m : Message, m.HeadFits p.limits ∧ q = m.headRequest := by
  unfold head at h
  split at h
  · cases h
  rename_i line r₁ hline
  split at h
  · cases h
  rename_i q₁ hstart
  obtain ⟨method, path, hm, hp, rfl, rfl⟩ := startLine_eq_ok_iff.1 hstart
  obtain ⟨hs, hv, hlen, rfl⟩ := exists_lines_of_headers h
  exact ⟨⟨method, path, hs, []⟩, ⟨hm, hp, hv, length_le_of_nextLine hline, hlen⟩, rfl⟩

/-- What is taken from a source, however the source behaves, is a message of the grammar. -/
theorem exists_message_of_parse (h : p.parse r = (.ok q, r')) :
    ∃ m : Message, m.Fits p.limits ∧ q = m.request := by
  unfold parse at h
  split at h
  · cases h
  rename_i q₁ r₁ hhead
  obtain ⟨m, hm, rfl⟩ := exists_message_of_head hhead
  obtain ⟨l, rfl, hl, hmax⟩ := exists_body_of_body m.body_headRequest h
  have hc : m.headRequest.contentLength = m.declared :=
    (Message.denotes_request hm.headers_valid).contentLength
  rw [hc] at hl hmax
  exact ⟨{ m with body := l }, ⟨⟨hm.1, hm.2, hm.3, hm.4, hm.5⟩, hl, hmax⟩, rfl⟩

end LineParser

end HttpServer
