import HttpServer.Config
import HttpServer.Parse.Bytewise
import Mathlib.Data.List.Induction

/-!
# The grammar of requests

A message is the written form of a request before anything is read into it : a method, a
path as it was spelled, header lines in their order and a body.

`Message.HeadFits` says which heads are in the grammar and within the limits, and
`Message.Fits` which whole messages are. The length that a message declares for its body is
the value of its last length line, held at `wordMax` as every count is; it is the value
itself unless the message is longer than `wordMax` (`Message.declared_eq`).

`Message.Denotes` is the meaning of a message : of several lines for one key the last one
counts. `Message.request` reads the lines into a request one after the other. That comes to the
same (`Message.denotes_request`), as what lines do to any request is to set the fields that they
name (`Message.overlays_readHeaders`).
-/

namespace HttpServer

/-! ## Header lines -/

/-- A header line in its parts. -/
structure HeaderLine where
  /-- What stands before the colon. -/
  key : Bytes
  /-- What stands after the colon and the blank. -/
  value : Bytes
deriving DecidableEq, Repr

namespace HeaderLine

/-- The line with its line end. -/
def render (h : HeaderLine) : Bytes := h.key ++ [colon, sp] ++ h.value ++ crlf

/-- The field of its own that the line sets, if it sets one. -/
def known? (h : HeaderLine) : Option KnownHeader := KnownHeader.ofKey? h.key

/-- The line is in the grammar. -/
structure Valid (h : HeaderLine) : Prop where
  key_ne_nil : h.key ≠ []
  key_bytes : ∀ b ∈ h.key, isKeyByte b
  value_ne_nil : h.value ≠ []
  value_bytes : ∀ b ∈ h.value, isValueByte b
  length_digits : h.known? = some .contentLength → ∀ b ∈ h.value, isDigit b

variable {h : HeaderLine} {r r' : Request}

/-- A line sets a header exactly when its value is a number where it has to be. -/
theorem setHeader?_eq_some_iff (hv : h.value ≠ []) :
    r.setHeader? h.key h.value = some r' ↔
      (h.known? = some .contentLength → ∀ b ∈ h.value, isDigit b) ∧
        r' = r.withHeader h.key h.value := by
  unfold Request.withHeader
  by_cases hk : h.known? = some .contentLength
  · have hs : r.setHeader? h.key h.value =
        (Decimal.read? h.value).map fun n => { r with contentLength := n } := by
      unfold known? at hk
      rw [Request.setHeader?, hk]
    simp only [hk, true_implies, hs]
    constructor
    · intro hr
      obtain ⟨n, hn, rfl⟩ := Option.map_eq_some_iff.1 hr
      exact ⟨(Decimal.read?_eq_some_iff.1 hn).2.1, by simp [hn]⟩
    · rintro ⟨hd, rfl⟩
      rw [Decimal.read?_eq_some_iff.2 ⟨hv, hd, rfl⟩]
      rfl
  · obtain ⟨q, hq⟩ : ∃ q, r.setHeader? h.key h.value = some q := by
      unfold known? at hk
      unfold Request.setHeader?
      split <;> first | exact absurd ‹_› hk | exact ⟨_, rfl⟩
    simp only [hq, hk, Option.getD_some, Option.some.injEq, false_implies, true_and]
    exact eq_comm

theorem Valid.setHeader? (hh : h.Valid) (r : Request) :
    r.setHeader? h.key h.value = some (r.withHeader h.key h.value) :=
  (setHeader?_eq_some_iff hh.value_ne_nil).2 ⟨hh.length_digits, rfl⟩

/-- What a line of the grammar does to a request. -/
theorem Valid.withHeader_eq (hh : h.Valid) (r : Request) :
    r.withHeader h.key h.value =
      match h.known? with
      | some .contentLength => { r with contentLength := min (Decimal.value h.value) wordMax }
      | some .contentType => { r with contentType := h.value }
      | some .host => { r with host := h.value }
      | none => { r with headers := r.headers.insert h.key h.value } := by
  have hs := hh.setHeader? r
  have hd := hh.length_digits
  unfold Request.setHeader? at hs
  unfold known? at hd ⊢
  rcases hk : KnownHeader.ofKey? h.key with _ | known
  · rw [hk] at hs
    exact (Option.some.inj hs).symm
  · rw [hk] at hs
    cases known with
    | contentLength =>
      rw [Decimal.read?_eq_some_iff.2 ⟨hh.value_ne_nil, hd hk, rfl⟩] at hs
      exact (Option.some.inj hs).symm
    | contentType | host => exact (Option.some.inj hs).symm

end HeaderLine

/-- The value of the last header line of a kind. -/
def lastValue? (p : HeaderLine → Bool) (hs : List HeaderLine) : Option Bytes :=
  (hs.reverse.find? p).map (·.value)

@[simp] theorem lastValue?_nil (p : HeaderLine → Bool) : lastValue? p [] = none := rfl

@[simp] theorem lastValue?_concat (p : HeaderLine → Bool) (hs : List HeaderLine)
    (h : HeaderLine) :
    lastValue? p (hs ++ [h]) = if p h then some h.value else lastValue? p hs := by
  unfold lastValue?
  rw [List.reverse_append, List.reverse_singleton, List.singleton_append, List.find?_cons]
  split <;> simp [*]

theorem lastValue?_eq_some {p : HeaderLine → Bool} {hs : List HeaderLine} {v : Bytes}
    (h : lastValue? p hs = some v) : ∃ g ∈ hs, p g = true ∧ g.value = v := by
  obtain ⟨g, hg, rfl⟩ := Option.map_eq_some_iff.1 h
  exact ⟨g, List.mem_reverse.1 (List.mem_of_find?_eq_some hg), List.find?_some hg, rfl⟩

/-! ## Messages -/

/-- The written form of a request in its parts. -/
structure Message where
  /-- The method. -/
  method : Method
  /-- The path as it was spelled. -/
  path : Bytes
  /-- The header lines in their order. -/
  headers : List HeaderLine
  /-- The body. -/
  body : Bytes
deriving DecidableEq, Repr

namespace Message

/-- The start line with its line end. -/
def startLine (method : Method) (path : Bytes) : Bytes :=
  method.token ++ [sp] ++ path ++ [sp] ++ ByteParser.version ++ crlf

/-- The path is in the grammar. -/
structure ValidPath (path : Bytes) : Prop where
  head : path.head? = some slash
  bytes : ∀ b ∈ path, isPathByte b

/-- All lines before the body. -/
def head (m : Message) : Bytes :=
  startLine m.method m.path ++ m.headers.flatMap HeaderLine.render ++ crlf

/-- All bytes of the message. -/
def render (m : Message) : Bytes := m.head ++ m.body

/-- The length that the message writes down for its body, zero if it writes none. -/
def writtenLength (m : Message) : Nat :=
  ((lastValue? (fun h => h.known? = some .contentLength) m.headers).map Decimal.value).getD 0

/-- The length that the message declares for its body : the one written down, held at
`wordMax`. -/
def declared (m : Message) : Nat := min m.writtenLength wordMax

/-- The head is in the grammar, and its lines are within the limits : none has more bytes than
`Limits.maxLine` and those of its line end. -/
structure HeadFits (m : Message) (limits : Limits) : Prop where
  method_named : m.method ∈ Method.named
  path_valid : ValidPath m.path
  headers_valid : ∀ h ∈ m.headers, h.Valid
  startLine_length : (startLine m.method m.path).length ≤ min (limits.maxLine + 2) wordMax
  header_length : ∀ h ∈ m.headers, h.render.length ≤ min (limits.maxLine + 2) wordMax

/-- The message is in the grammar and within the limits. -/
structure Fits (m : Message) (limits : Limits) : Prop extends HeadFits m limits where
  body_length : m.body.length = m.declared
  body_le : m.declared ≤ limits.maxBody

/-- The declared length of a message that is itself no longer than `wordMax` is the length
written down. -/
theorem Fits.declared_eq {m : Message} {limits : Limits} (h : m.Fits limits)
    (hlen : m.render.length ≤ wordMax) : m.declared = m.writtenLength := by
  have hb := h.body_length
  have hc : 0 < m.head.length := by
    simp only [head, crlf, List.length_append, List.length_cons]
    omega
  rw [render, List.length_append, hb] at hlen
  unfold declared at hlen ⊢
  omega

/-! ## Meaning -/

/-- The request is what the message means. -/
structure Denotes (m : Message) (r : Request) : Prop where
  method : r.method = m.method
  path : r.path = Path.clean m.path
  host : r.host = (lastValue? (fun h => h.known? = some .host) m.headers).getD []
  contentType :
    r.contentType = (lastValue? (fun h => h.known? = some .contentType) m.headers).getD []
  contentLength : r.contentLength = m.declared
  headers : ∀ k, r.headers.get? k = lastValue? (fun h => h.known? = none ∧ h.key = k) m.headers
  body : r.body = m.body

/-- The request that a start line begins. -/
def startRequest (method : Method) (path : Bytes) : Request :=
  { method, path := Path.clean path }

/-- Reads header lines into a request, one after the other. -/
def readHeaders (r : Request) (hs : List HeaderLine) : Request :=
  hs.foldl (fun r h => r.withHeader h.key h.value) r

@[simp] theorem readHeaders_nil (r : Request) : readHeaders r [] = r := rfl

@[simp] theorem readHeaders_cons (r : Request) (h : HeaderLine) (hs : List HeaderLine) :
    readHeaders r (h :: hs) = readHeaders (r.withHeader h.key h.value) hs := rfl

theorem readHeaders_append (r : Request) (hs hs' : List HeaderLine) :
    readHeaders r (hs ++ hs') = readHeaders (readHeaders r hs) hs' :=
  List.foldl_append

theorem readHeaders_concat (r : Request) (hs : List HeaderLine) (h : HeaderLine) :
    readHeaders r (hs ++ [h]) = (readHeaders r hs).withHeader h.key h.value := by
  simp [readHeaders]

theorem body_readHeaders (r : Request) (hs : List HeaderLine) :
    (readHeaders r hs).body = r.body := by
  induction hs generalizing r with
  | nil => rfl
  | cons h hs ih => rw [readHeaders_cons, ih, Request.body_withHeader]

/-- The request that a head is read into when there is a request before it. -/
def readOnto (m : Message) (r : Request) : Request :=
  readHeaders { r with method := m.method, path := Path.clean m.path } m.headers

/-- The request that a head is read into. -/
def headRequest (m : Message) : Request := readHeaders (startRequest m.method m.path) m.headers

theorem body_headRequest (m : Message) : m.headRequest.body = [] := body_readHeaders _ _

/-- The request that a message is read into. -/
def request (m : Message) : Request := { m.headRequest with body := m.body }

/-- A request after header lines : of the lines for one key the last one counts, and what no
line names is as it was before. -/
structure Overlays (hs : List HeaderLine) (r r' : Request) : Prop where
  method : r'.method = r.method
  path : r'.path = r.path
  host : r'.host = (lastValue? (fun h => h.known? = some .host) hs).getD r.host
  contentType :
    r'.contentType = (lastValue? (fun h => h.known? = some .contentType) hs).getD r.contentType
  contentLength :
    r'.contentLength = ((lastValue? (fun h => h.known? = some .contentLength) hs).map fun v =>
      min (Decimal.value v) wordMax).getD r.contentLength
  headers : ∀ k, r'.headers.get? k =
    (lastValue? (fun h => h.known? = none ∧ h.key = k) hs).or (r.headers.get? k)
  body : r'.body = r.body

/-- Reading the lines one after the other lets the last one for each key count. -/
theorem overlays_readHeaders {hs : List HeaderLine} (hv : ∀ h ∈ hs, h.Valid) (r : Request) :
    Overlays hs r (readHeaders r hs) := by
  induction hs using List.reverseRecOn with
  | nil => constructor <;> simp
  | append_singleton hs h ih =>
    have ih := ih fun h' hh => hv h' (by simp [hh])
    have hw := (hv h (by simp)).withHeader_eq
    rw [readHeaders_concat]
    generalize readHeaders r hs = q at ih ⊢
    obtain ⟨h1, h2, h3, h4, h5, h6, h7⟩ := ih
    rw [hw]
    split <;> rename_i hk <;> constructor <;> simp [*]
    -- left is the case of a line that has no field of its own
    intro k
    rw [Fields.get?_insert, h6]
    split <;> simp [*]

/-- The request that a message is read into is what the message means. -/
theorem denotes_request {m : Message} (hv : ∀ h ∈ m.headers, h.Valid) :
    m.Denotes m.request := by
  obtain ⟨h1, h2, h3, h4, h5, h6, -⟩ :=
    overlays_readHeaders hv (startRequest m.method m.path)
  refine ⟨h1, h2, h3, h4, h5.trans ?_, fun k => (h6 k).trans ?_, rfl⟩
  · unfold declared writtenLength
    cases lastValue? (fun h => h.known? = some .contentLength) m.headers <;> simp [startRequest]
  · exact Option.or_none

end Message

end HttpServer
