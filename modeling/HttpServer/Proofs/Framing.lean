import HttpServer.Proofs.Head

/-!
# Responses are read back

A reader that knows nothing but the wire form gets the response back, with its body unless the
status is 204 (`Response.read?_render`). It takes the head apart line by line : the status, the
content type, the length where there is one, and the headers. What follows the head must be as
long as the length says, so a body can hold empty lines and whole headers without being mistaken
for a part of the head.

Two responses that are written alike are therefore equal (`Response.render_framed`).
-/

namespace HttpServer.Response

/-! ## Reading lines -/

/-- The status of a status line. -/
def readStatus? (line : Bytes) : Option Status := do
  let (digits, words) ← splitAtByte? sp (← (utf8 "HTTP/1.1 ").isPrefixOf? line)
  let s : Status := ⟨Decimal.value digits⟩
  if words = utf8 s.description then some s else none

/-- The content type of a line with the type of the body. -/
def readType? (line : Bytes) : Option Bytes := (utf8 "Content-Type: ").isPrefixOf? line

/-- The number of a line with the length of the body. -/
def readLength? (line : Bytes) : Option Nat :=
  ((utf8 "Content-Length: ").isPrefixOf? line).map Decimal.value

/-- The key and the value of a header line. -/
def readField? (line : Bytes) : Option (Bytes × Bytes) := do
  let (key, rest) ← splitAtByte? colon line
  let value ← [sp].isPrefixOf? rest
  return (key, value)

/-- The headers of header lines. -/
def readFields? : List Bytes → Option Fields
  | [] => some ∅
  | line :: ls => do
    let (key, value) ← readField? line
    return (← readFields? ls).insert key value

/-- The response of a wire form. -/
def read? (wire : Bytes) : Option Response := do
  let (head, rest) ← readHead? wire
  match head with
  | first :: second :: more =>
    let status ← readStatus? first
    let contentType ← readType? second
    if status = .noContent then
      if rest = [] then return { status, contentType, headers := ← readFields? more } else none
    else
      match more with
      | third :: fields =>
        if readLength? third = some rest.length then
          return { status, contentType, headers := ← readFields? fields, body := rest }
        else none
      | [] => none
  | _ => none

theorem readStatus?_statusLine (s : Status) : readStatus? (statusLine s) = some s := by
  have hline : (utf8 "HTTP/1.1 ").isPrefixOf? (statusLine s) =
      some (Decimal.ofNat s.code ++ sp :: utf8 s.description) := by
    rw [List.isPrefixOf?_eq_some_iff_append_eq]
    simp [statusLine]
  have hsp : sp ∉ Decimal.ofNat s.code :=
    not_mem_of_class (by decide) fun _ h => Decimal.isDigit_of_mem_ofNat h
  simp [readStatus?, hline, splitAtByte?_append hsp, Decimal.value_ofNat]

theorem readType?_typeLine (v : Bytes) : readType? (typeLine v) = some v :=
  List.isPrefixOf?_eq_some_iff_append_eq.2 rfl

theorem readLength?_lengthLine (n : Nat) : readLength? (lengthLine n) = some n := by
  have hline : (utf8 "Content-Length: ").isPrefixOf? (lengthLine n) = some (Decimal.ofNat n) :=
    List.isPrefixOf?_eq_some_iff_append_eq.2 rfl
  rw [readLength?, hline, Option.map_some, Decimal.value_ofNat]

theorem readField?_fieldLine {e : Bytes × Bytes} (he : colon ∉ e.1) :
    readField? (fieldLine e) = some e := by
  have hline : fieldLine e = e.1 ++ colon :: sp :: e.2 := by simp [fieldLine]
  simp [readField?, hline, splitAtByte?_append he, List.isPrefixOf?]

/-- Headers in the order of their keys are read as they were written. -/
theorem readFields?_entries (f : Fields) (hf : ∀ e ∈ f.entries, colon ∉ e.1) :
    readFields? (f.entries.map fieldLine) = some f := by
  obtain ⟨l, hl⟩ := f
  induction l with
  | nil => rfl
  | cons e l ih =>
    obtain ⟨he, hl'⟩ := List.pairwise_cons.1 hl
    rw [List.forall_mem_cons] at hf
    -- The rest is read first, so each header is inserted before all others.
    have hinsert : Fields.insertEntry e.1 e.2 l = e :: l := by
      cases l with
      | nil => rfl
      | cons a l => exact if_pos (he a (by simp))
    simp [readFields?, readField?_fieldLine hf.1, ih hl' hf.2, Fields.insert, hinsert]

/-! ## Reading responses -/

variable {r : Response}

/-- A response is read as it was written. -/
theorem read?_render (h : r.HasInlineHead) (hkeys : ∀ e ∈ r.headers.entries, colon ∉ e.1) :
    read? r.render = some { r with body := r.payload } := by
  have hfields := readFields?_entries r.headers hkeys
  unfold read?
  rw [readHead?_render h]
  by_cases hs : r.status = .noContent
  · simp [headLines, payload, hs, readStatus?_statusLine, readType?_typeLine, hfields]
  · simp [headLines, payload, hs, readStatus?_statusLine, readType?_typeLine,
      readLength?_lengthLine, contentLength, hfields]

/-- The wire form of a response is `head`, the first empty line, and `rest`. -/
structure IsFramed (r : Response) (head rest : Bytes) : Prop where
  render_eq : r.render = head ++ (crlf ++ crlf) ++ rest
  first : ∀ p q, r.render = p ++ (crlf ++ crlf) ++ q → head.length ≤ p.length
  sorted : r.headers.entries.Pairwise fun a b => a.1 < b.1
  /-- Without content there is no length line, and nothing follows the head. -/
  noContent : r.status = .noContent → rest = [] ∧
    lines head = statusLine r.status :: typeLine r.contentType :: r.headers.entries.map fieldLine
  /-- Otherwise the third line has the length of the body, and the body follows the head. -/
  content : r.status ≠ .noContent → rest = r.body ∧ ∃ digits, (∀ d ∈ digits, isDigit d) ∧
    Decimal.value digits = rest.length ∧
    lines head = statusLine r.status :: typeLine r.contentType ::
      (utf8 "Content-Length: " ++ digits) :: r.headers.entries.map fieldLine

theorem isFramed (h : r.HasInlineHead) : IsFramed r (crlf.intercalate r.headLines) r.payload where
  render_eq := r.render_eq
  first p q hpq := length_intercalate_le (by simp [headLines])
    (fun x hx => ⟨(h.headLines x hx).1, (h.headLines x hx).2.1⟩)
    ((List.append_assoc _ _ _).symm.trans (r.render_eq.symm.trans hpq))
  sorted := r.headers.sorted
  noContent hs := by
    rw [h.lines_head]
    simp [payload, headLines, hs]
  content hs := by
    have hrest : r.payload = r.body := if_neg hs
    refine ⟨hrest, Decimal.ofNat r.body.length, fun _ => Decimal.isDigit_of_mem_ofNat, ?_, ?_⟩
    · rw [hrest, Decimal.value_ofNat]
    · rw [h.lines_head]
      simp [headLines, hs, lengthLine, contentLength]

/-- A response whose content type and headers have no line end, and whose header keys have no colon,
is framed unambiguously : the first empty line ends its head, a reader gets it back with what it
sends as its body, and of those with a body no two are written alike. -/
theorem render_framed (h : r.HasInlineHead) (hkeys : ∀ e ∈ r.headers.entries, colon ∉ e.1) :
    (∃ head rest, IsFramed r head rest) ∧ read? r.render = some { r with body := r.payload } ∧
      ∀ r' : Response, r'.HasInlineHead → (∀ e ∈ r'.headers.entries, colon ∉ e.1) →
        r.status ≠ .noContent → r'.status ≠ .noContent → r.render = r'.render → r = r' := by
  refine ⟨⟨_, _, isFramed h⟩, read?_render h hkeys, fun r' h' hkeys' hs hs' heq => ?_⟩
  have hread := read?_render h hkeys
  rw [heq, read?_render h' hkeys', Option.some.injEq, payload, payload, if_neg hs, if_neg hs']
    at hread
  exact hread.symm

/-- A response whose body begins with an empty line and a header. -/
def forged : Response where
  status := ⟨201⟩
  headers := (∅ : Fields).insert (utf8 "X-Note") (utf8 "a: b")
  body := utf8 "\r\n\r\nContent-Length: 7\r\n"

/-- The body is not mistaken for a part of the head. -/
theorem render_framed_forged :
    (forged.HasInlineHead ∧ ∀ e ∈ forged.headers.entries, colon ∉ e.1) ∧
      (∃ head rest, IsFramed forged head rest) ∧ read? forged.render = some forged := by
  have h : forged.HasInlineHead := ⟨⟨by decide, by decide⟩, fun e he => by
    obtain rfl : e = (utf8 "X-Note", utf8 "a: b") := List.mem_singleton.1 he
    exact ⟨⟨by decide, by decide⟩, by decide, by decide⟩⟩
  have hkeys : ∀ e ∈ forged.headers.entries, colon ∉ e.1 := by decide
  obtain ⟨hframed, hread, -⟩ := render_framed h hkeys
  exact ⟨⟨h, hkeys⟩, hframed, hread⟩

end HttpServer.Response
