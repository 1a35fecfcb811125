import HttpServer.Response
import Mathlib.Data.List.Basic

/-!
# The head of a response

The wire form of a response is a head of lines, an empty line, and what follows it. A reader
cuts it at the first empty line and the head at its line ends. If the content type and the
headers of a response have no line end of their own, it finds the lines that were written, and
after them the body (`Response.readHead?_render`).
-/

namespace HttpServer

/-! ## Lines -/

/-- The stretch stands on one line. -/
def IsInline (l : Bytes) : Prop := cr ∉ l ∧ lf ∉ l

theorem isInline_append {a b : Bytes} : IsInline (a ++ b) ↔ IsInline a ∧ IsInline b := by
  simp only [IsInline, List.mem_append, not_or]
  exact and_and_and_comm

/-- The lines of a text, which is cut at every line end. -/
def lines : Bytes → List Bytes
  | [] => [[]]
  | [b] => [[b]]
  | b :: c :: l => if b = cr ∧ c = lf then [] :: lines l else (lines (c :: l)).modifyHead (b :: ·)

theorem lines_cons {b : UInt8} (hb : b ≠ cr) (l : Bytes) :
    lines (b :: l) = (lines l).modifyHead (b :: ·) := by
  cases l with
  | nil => rfl
  | cons c l => exact if_neg fun h => hb h.1

theorem lines_of_not_mem {x : Bytes} (hx : cr ∉ x) : lines x = [x] := by
  induction x with
  | nil => rfl
  | cons b x ih =>
    rw [List.mem_cons, not_or] at hx
    rw [lines_cons (Ne.symm hx.1), ih hx.2]
    rfl

theorem lines_append {x : Bytes} (hx : cr ∉ x) (l : Bytes) :
    lines (x ++ crlf ++ l) = x :: lines l := by
  induction x with
  | nil => exact if_pos ⟨rfl, rfl⟩
  | cons b x ih =>
    rw [List.mem_cons, not_or] at hx
    rw [List.cons_append, List.cons_append, lines_cons (Ne.symm hx.1), ih hx.2]
    rfl

/-- Lines that are joined by line ends are found again. -/
theorem lines_intercalate {ls : List Bytes} (hne : ls ≠ []) (hls : ∀ x ∈ ls, cr ∉ x) :
    lines (crlf.intercalate ls) = ls := by
  induction ls with
  | nil => contradiction
  | cons x ls ih =>
    rw [List.forall_mem_cons] at hls
    cases ls with
    | nil => simpa using lines_of_not_mem hls.1
    | cons y ls => rw [List.intercalate_cons_cons, lines_append hls.1, ih (by simp) hls.2]

/-! ## The first empty line -/

/-- The lines before the first empty line, and what stands after it. -/
def readHead? (wire : Bytes) : Option (List Bytes × Bytes) :=
  (wire.dropInfix? (crlf ++ crlf)).map fun p => (lines p.1, p.2)

/-- A `cr` in `x ++ l` before which `p` stands is one of `l`, if there is none in `x`. -/
theorem exists_append_of_cr {x l p q : Bytes} (hx : cr ∉ x) (h : x ++ l = p ++ cr :: q) :
    ∃ p', p = x ++ p' ∧ l = p' ++ cr :: q := by
  rcases List.append_eq_append_iff.1 h with ⟨p', rfl, h'⟩ | ⟨x', rfl, h'⟩
  · exact ⟨p', rfl, h'⟩
  · cases x' with
    | nil => exact ⟨[], by simp, h'.symm⟩
    | cons b x' =>
      obtain ⟨rfl, -⟩ := List.cons.inj h'
      exact absurd (by simp) hx

theorem intercalate_cons_ne {x : Bytes} (hne : x ≠ []) (hx : cr ∉ x) (ls : List Bytes)
    (l q : Bytes) : crlf.intercalate (x :: ls) ++ l ≠ cr :: q := by
  obtain ⟨b, x, rfl⟩ := List.exists_cons_of_ne_nil hne
  rw [List.mem_cons, not_or] at hx
  cases ls with
  | nil => simp [Ne.symm hx.1]
  | cons y ls => simp [List.intercalate_cons_cons, Ne.symm hx.1]

/-- Lines that are not empty have no empty line before their end. -/
theorem length_intercalate_le {ls : List Bytes} (hne : ls ≠ [])
    (hls : ∀ x ∈ ls, x ≠ [] ∧ cr ∉ x) {l p q : Bytes}
    (h : crlf.intercalate ls ++ l = p ++ (crlf ++ crlf) ++ q) :
    (crlf.intercalate ls).length ≤ p.length := by
  induction ls generalizing p with
  | nil => contradiction
  | cons x ls ih =>
    rw [List.forall_mem_cons] at hls
    obtain ⟨⟨-, hx⟩, hls⟩ := hls
    cases ls with
    | nil =>
      rw [List.intercalate_singleton] at h ⊢
      obtain ⟨p', rfl, -⟩ := exists_append_of_cr hx (h.trans (List.append_assoc _ _ _))
      simp
    | cons y ls =>
      obtain ⟨hy, -⟩ := List.forall_mem_cons.1 hls
      rw [List.intercalate_cons_cons, List.append_assoc, List.append_assoc] at h
      obtain ⟨p', rfl, h'⟩ := exists_append_of_cr hx (h.trans (List.append_assoc _ _ _))
      -- The empty line comes after the end of `x`, which is not followed by a `cr`.
      match p', h' with
      | [], h' => exact absurd (by simpa [crlf] using h') (intercalate_cons_ne hy.1 hy.2 ls l _)
      | [b], h' => exact absurd (List.cons.inj (List.cons.inj h').2).1 (by decide)
      | b :: c :: p', h' =>
        have h'' : crlf.intercalate (y :: ls) ++ l = p' ++ (crlf ++ crlf) ++ q := by
          simpa [crlf] using (List.cons.inj (List.cons.inj h').2).2
        have := ih (by simp) hls h''
        have : crlf.length = 2 := rfl
        rw [List.intercalate_cons_cons]
        simp only [List.length_append, List.length_cons]
        omega

/-- The lines before the first empty line are read as they were written. -/
theorem readHead?_intercalate {ls : List Bytes} (hne : ls ≠ [])
    (hls : ∀ x ∈ ls, x ≠ [] ∧ cr ∉ x) (rest : Bytes) :
    readHead? (crlf.intercalate ls ++ (crlf ++ crlf) ++ rest) = some (ls, rest) := by
  have hcut : (crlf.intercalate ls ++ (crlf ++ crlf) ++ rest).dropInfix? (crlf ++ crlf) =
      some (crlf.intercalate ls, rest) := by
    rw [List.dropInfix?_eq_some_iff]
    refine ⟨⟨_, rfl, beq_self_eq_true _⟩, fun p i q h hi => ?_⟩
    obtain rfl := eq_of_beq hi
    exact length_intercalate_le hne hls ((List.append_assoc _ _ _).symm.trans h)
  rw [readHead?, hcut, Option.map_some, lines_intercalate hne fun x hx => (hls x hx).2]

/-! ## The lines of a response -/

namespace Response

/-- The line with the status and what it means. -/
def statusLine (s : Status) : Bytes :=
  utf8 "HTTP/1.1 " ++ Decimal.ofNat s.code ++ [sp] ++ utf8 s.description

/-- The line with the type of the body. -/
def typeLine (v : Bytes) : Bytes := utf8 "Content-Type: " ++ v

/-- The line with the length of the body. -/
def lengthLine (n : Nat) : Bytes := utf8 "Content-Length: " ++ Decimal.ofNat n

/-- The line with a header. -/
def fieldLine (e : Bytes × Bytes) : Bytes := e.1 ++ [colon, sp] ++ e.2

/-- The lines of the head. -/
def headLines (r : Response) : List Bytes :=
  statusLine r.status :: typeLine r.contentType ::
    ((if r.status = .noContent then [] else [lengthLine r.contentLength]) ++
      r.headers.entries.map fieldLine)

/-- What follows the head. -/
def payload (r : Response) : Bytes := if r.status = .noContent then [] else r.body

/-- The content type and the headers bring no line end of their own. -/
structure HasInlineHead (r : Response) : Prop where
  contentType : IsInline r.contentType
  header : ∀ e ∈ r.headers.entries, IsInline e.1 ∧ IsInline e.2

variable {r : Response}

theorem isInline_ofNat (n : Nat) : IsInline (Decimal.ofNat n) :=
  ⟨not_mem_of_class (by decide) fun _ h => Decimal.isDigit_of_mem_ofNat h,
    not_mem_of_class (by decide) fun _ h => Decimal.isDigit_of_mem_ofNat h⟩

theorem isInline_description (s : Status) : IsInline (utf8 s.description) := by
  unfold Status.description
  split
  all_goals exact ⟨by decide, by decide⟩

theorem isInline_statusLine (s : Status) : IsInline (statusLine s) := by
  simp only [statusLine, isInline_append]
  exact ⟨⟨⟨⟨by decide, by decide⟩, isInline_ofNat _⟩, by decide, by decide⟩, isInline_description s⟩

/-- No line of the head is empty, and none has a line end in it. -/
theorem HasInlineHead.headLines (h : r.HasInlineHead) : ∀ x ∈ r.headLines, x ≠ [] ∧ IsInline x := by
  intro x hx
  simp only [Response.headLines, List.mem_cons, List.mem_append, List.mem_map] at hx
  rcases hx with rfl | rfl | hx | ⟨e, he, rfl⟩
  · exact ⟨by simp [statusLine], isInline_statusLine _⟩
  · exact ⟨List.append_ne_nil_of_left_ne_nil (by decide) _,
      isInline_append.2 ⟨⟨by decide, by decide⟩, h.contentType⟩⟩
  · split at hx
    · contradiction
    · rw [List.mem_singleton.1 hx]
      exact ⟨List.append_ne_nil_of_left_ne_nil (by decide) _,
        isInline_append.2 ⟨⟨by decide, by decide⟩, isInline_ofNat _⟩⟩
  · obtain ⟨hk, hv⟩ := h.header e he
    refine ⟨by simp [fieldLine], ?_⟩
    simp only [fieldLine, isInline_append]
    exact ⟨⟨hk, by decide, by decide⟩, hv⟩

theorem HasInlineHead.lines_head (h : r.HasInlineHead) :
    lines (crlf.intercalate r.headLines) = r.headLines :=
  lines_intercalate (by simp [Response.headLines]) fun x hx => (h.headLines x hx).2.1

theorem intercalate_append_crlf {ls : List Bytes} (hne : ls ≠ []) :
    crlf.intercalate ls ++ crlf = ls.flatMap (· ++ crlf) := by
  induction ls with
  | nil => contradiction
  | cons x ls ih =>
    cases ls with
    | nil => simp
    | cons y ls =>
      rw [List.intercalate_cons_cons, List.append_assoc, ih (by simp)]
      rfl

theorem flatten_headerPieces (f : Fields) :
    (headerPieces f).flatten = (f.entries.map fieldLine).flatMap (· ++ crlf) := by
  simp only [headerPieces, fieldLine, List.flatMap_map]
  generalize f.entries = l
  induction l with
  | nil => rfl
  | cons e l ih => simp [ih]

/-- The wire form is the lines of the head, an empty line, and what follows. -/
theorem render_eq (r : Response) :
    r.render = crlf.intercalate r.headLines ++ (crlf ++ crlf) ++ r.payload := by
  have htype : utf8 "\r\nContent-Type: " = crlf ++ utf8 "Content-Type: " := by decide
  rw [← List.append_assoc, intercalate_append_crlf (by simp [headLines])]
  simp only [render, pieces, List.flatten_append, flatten_headerPieces]
  by_cases h : r.status = .noContent
  all_goals simp [h, htype, statusPieces, lengthPieces, bodyPieces, headLines, payload, statusLine,
    typeLine, lengthLine]

/-- The head of a response is read as it was written, and the body follows it. -/
theorem readHead?_render (h : r.HasInlineHead) :
    readHead? r.render = some (r.headLines, r.payload) := by
  rw [render_eq]
  exact readHead?_intercalate (by simp [headLines])
    (fun x hx => ⟨(h.headLines x hx).1, (h.headLines x hx).2.1⟩) _

end Response

end HttpServer
