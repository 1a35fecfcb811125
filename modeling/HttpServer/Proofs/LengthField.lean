import HttpServer.Proofs.Head

/-!
# Who says how long the body is

A response is made in steps, and the length of its body is counted when it is written. But a
header can have any key, also that of the length : then the head names a length twice, or names
one where there is no body. The lines that name a length are the counted one and those of such
headers (`Response.filter_headLines`), so the head states the length, once and right, exactly if
no step has set such a header (`Response.statesLength_build_iff`).
-/

namespace HttpServer

/-! ## Names and values -/

/-- What stands on a line before the first colon. -/
def fieldName (line : Bytes) : Bytes := line.takeWhile (· != colon)

/-- What stands on a line after the first colon and the blank behind it. -/
def fieldValue (line : Bytes) : Bytes := (line.dropWhile (· != colon)).drop 2

/-- The line names a length, in any case of its letters. -/
def NamesLength (line : Bytes) : Prop := eqIgnoreCase (fieldName line) (utf8 "content-length")

instance : DecidablePred NamesLength := fun _ => inferInstanceAs (Decidable (_ = true))

/-- A colon ends the name of a line, whatever comes after it. -/
theorem fieldName_append (k l : Bytes) : fieldName (k ++ colon :: l) = fieldName k := by
  unfold fieldName
  induction k with
  | nil => rfl
  | cons b k ih => by_cases hb : b = colon <;> simp_all

theorem namesLength_append {k l : Bytes} : NamesLength (k ++ colon :: l) ↔ NamesLength k := by
  rw [NamesLength, NamesLength, fieldName_append]

namespace Response

theorem not_namesLength_statusLine (s : Status) : ¬ NamesLength (statusLine s) := by
  obtain ⟨l, hl⟩ : ∃ l, statusLine s = 72 :: l := ⟨_, rfl⟩
  have hname : fieldName (72 :: l) = 72 :: fieldName l := List.takeWhile_cons_of_pos (by decide)
  have hlength : utf8 "content-length" = 99 :: utf8 "ontent-length" := by decide
  rw [NamesLength, hl, hname, hlength, eqIgnoreCase, List.map_cons, List.map_cons]
  simp [toLower, isUpper]

theorem not_namesLength_typeLine (v : Bytes) : ¬ NamesLength (typeLine v) := by
  have hline : typeLine v = utf8 "Content-Type" ++ colon :: sp :: v := rfl
  rw [hline, namesLength_append]
  decide

theorem namesLength_lengthLine (n : Nat) : NamesLength (lengthLine n) := by
  have hline : lengthLine n = utf8 "Content-Length" ++ colon :: sp :: Decimal.ofNat n := rfl
  rw [hline, namesLength_append]
  decide

theorem fieldValue_lengthLine (n : Nat) : fieldValue (lengthLine n) = Decimal.ofNat n := rfl

theorem namesLength_fieldLine {x : Bytes × Bytes} :
    NamesLength (fieldLine x) ↔ NamesLength x.1 := by
  have hline : fieldLine x = x.1 ++ colon :: sp :: x.2 := by simp [fieldLine]
  rw [hline, namesLength_append]

/-- The lines that name a length are the counted one and those of headers with such a key. -/
theorem filter_headLines (r : Response) :
    r.headLines.filter NamesLength =
      (if r.status = .noContent then [] else [lengthLine r.contentLength]) ++
        (r.headers.entries.filter fun x => NamesLength x.1).map fieldLine := by
  have hlength : [lengthLine r.contentLength].filter NamesLength = [lengthLine r.contentLength] :=
    List.filter_eq_self.2 (by simp [namesLength_lengthLine])
  rw [headLines, List.filter_cons_of_neg (by simpa using not_namesLength_statusLine _),
    List.filter_cons_of_neg (by simpa using not_namesLength_typeLine _), List.filter_append,
    List.filter_map]
  simp only [Function.comp_def, namesLength_fieldLine]
  split
  · rfl
  · rw [hlength]

/-! ## Steps -/

/-- A step in the making of a response. -/
inductive Edit : Type 1 where
  | status (s : Status)
  | contentType (v : Bytes)
  | header (key value : Bytes)
  | body {α : Type} [BodyValue α] (v : α)
  | bodyOf (ls : List Bytes)
  | text {α : Type} [BodyValue α] (v : α)
  /-- A value without a JSON form changes nothing. -/
  | json (v? : Option Json)

/-- The response after a step. -/
def edit (r : Response) : Edit → Response
  | .status s => r.withStatus s
  | .contentType v => r.withContentType v
  | .header key value => r.withHeader key value
  | @Edit.body _ _ v => r.withBody v
  | .bodyOf ls => r.withBodyOf ls
  | @Edit.text _ _ v => r.withText v
  | .json v? => (r.withJson? v?).getD r

/-- The response that is made in some steps. -/
def build (es : List Edit) : Response := es.foldl edit {}

/-- The step brings no line end into the head. -/
def Edit.IsInline : Edit → Prop
  | .contentType v => HttpServer.IsInline v
  | .header key value => HttpServer.IsInline key ∧ HttpServer.IsInline value
  | _ => True

variable {r : Response} {e : Edit} {es : List Edit}

/-- The keys of the headers are those that were set. -/
theorem mem_keys_edit {k : Bytes} :
    k ∈ (r.edit e).headers.entries.map (·.1) ↔
      (∃ v, e = .header k v) ∨ k ∈ r.headers.entries.map (·.1) := by
  cases e with
  | header k' v =>
    refine Fields.mem_keys_insertEntry.trans (or_congr_left ?_)
    simp [eq_comm]
  | json v? => cases v? <;> simp [edit, withJson?]
  | _ => simp [edit, withStatus, withContentType, withBody, withBodyOf, withText]

theorem mem_keys_build {k : Bytes} :
    k ∈ (build es).headers.entries.map (·.1) ↔ ∃ v, .header k v ∈ es := by
  -- The later steps meet whatever response the earlier ones have made.
  suffices hfold : ∀ r : Response, k ∈ (es.foldl edit r).headers.entries.map (·.1) ↔
      (∃ v, .header k v ∈ es) ∨ k ∈ r.headers.entries.map (·.1) by
    refine (hfold {}).trans (or_iff_left fun h => ?_)
    nomatch h
  induction es with
  | nil => simp
  | cons e es ih =>
    intro r
    rw [List.foldl_cons, ih, mem_keys_edit, ← or_assoc]
    simp [exists_or, or_comm, eq_comm]

theorem isInline_textPlain : HttpServer.IsInline textPlain := ⟨by decide, by decide⟩

theorem isInline_applicationJson : HttpServer.IsInline applicationJson := ⟨by decide, by decide⟩

theorem HasInlineHead.edit (h : r.HasInlineHead) (he : e.IsInline) : (r.edit e).HasInlineHead := by
  cases e with
  | contentType v => exact ⟨he, h.header⟩
  | header k v =>
    refine ⟨h.contentType, fun x hx => ?_⟩
    rcases Fields.mem_insertEntry hx with rfl | hx
    · exact he
    · exact h.header x hx
  | text v => exact ⟨isInline_textPlain, h.header⟩
  | json v? =>
    cases v? with
    | none => exact h
    | some v => exact ⟨isInline_applicationJson, h.header⟩
  | _ => exact ⟨h.contentType, h.header⟩

theorem hasInlineHead_build (h : ∀ e ∈ es, e.IsInline) : (build es).HasInlineHead := by
  suffices hfold : ∀ r : Response, r.HasInlineHead → (es.foldl Response.edit r).HasInlineHead from
    hfold {} ⟨isInline_textPlain, fun _ h => nomatch h⟩
  induction es with
  | nil => exact fun r hr => hr
  | cons e es ih =>
    rw [List.forall_mem_cons] at h
    exact fun r hr => ih h.2 _ (hr.edit h.1)

/-! ## Stating the length -/

/-- With content, the head has exactly one line that names a length, and its value is the length of
what follows the head. Without content it has none. -/
def StatesLength (r : Response) : Prop :=
  ∃ head rest, readHead? r.render = some (head, rest) ∧
    if r.status = .noContent then head.filter NamesLength = []
    else ∃ line, head.filter NamesLength = [line] ∧ fieldValue line = Decimal.ofNat rest.length

/-- The head states the length exactly if no header of the response has its name. -/
theorem HasInlineHead.statesLength_iff (h : r.HasInlineHead) :
    r.StatesLength ↔ ∀ k ∈ r.headers.entries.map (·.1), ¬ NamesLength k := by
  have hkeys : (∀ k ∈ r.headers.entries.map (·.1), ¬ NamesLength k) ↔
      (r.headers.entries.filter fun x => NamesLength x.1).map fieldLine = [] := by
    rw [List.map_eq_nil_iff, List.filter_eq_nil_iff, List.forall_mem_map]
    simp
  have hfilter := filter_headLines r
  rw [hkeys]
  by_cases hs : r.status = .noContent
  · rw [if_pos hs, List.nil_append] at hfilter
    rw [← hfilter]
    simp [StatesLength, readHead?_render h, hs]
  · have hvalue : fieldValue (lengthLine r.contentLength) = Decimal.ofNat r.payload.length := by
      rw [fieldValue_lengthLine, payload, if_neg hs, contentLength]
    rw [if_neg hs, List.singleton_append] at hfilter
    simp only [StatesLength, readHead?_render h, Option.some.injEq, Prod.mk.injEq, hs, if_false]
    constructor
    · rintro ⟨_, _, ⟨rfl, rfl⟩, line, hline, -⟩
      exact (List.cons.inj (hfilter.symm.trans hline)).2
    · intro hnone
      rw [hnone] at hfilter
      exact ⟨_, _, ⟨rfl, rfl⟩, _, hfilter, hvalue⟩

/-- A response that is made without line ends of its own in the head states its length, once and
right, exactly if no step sets a header with the name of the length. -/
theorem statesLength_build_iff (h : ∀ e ∈ es, e.IsInline) :
    (build es).StatesLength ↔ ∀ k v, .header k v ∈ es → ¬ NamesLength k := by
  rw [(hasInlineHead_build h).statesLength_iff]
  constructor
  · exact fun hk k v hkv => hk k (mem_keys_build.2 ⟨v, hkv⟩)
  · intro hk k hmem
    obtain ⟨v, hv⟩ := mem_keys_build.1 hmem
    exact hk k v hv

/-- A response whose text is replaced and whose headers have only the look of a length. -/
def measured : List Edit :=
  [.header (utf8 "X-Content-Length") (utf8 "Content-Length: 7"), .body "first", .text "hi"]

theorem statesLength_measured : (∀ e ∈ measured, e.IsInline) ∧ (build measured).StatesLength := by
  have h : ∀ e ∈ measured, e.IsInline := by
    simp only [measured, List.forall_mem_cons, Edit.IsInline]
    exact ⟨⟨⟨by decide, by decide⟩, by decide, by decide⟩, trivial, trivial, fun _ h => nomatch h⟩
  refine ⟨h, (statesLength_build_iff h).2 fun k v hkv => ?_⟩
  simp only [measured, List.mem_cons, List.not_mem_nil, reduceCtorEq, or_false,
    Edit.header.injEq] at hkv
  rw [hkv.1]
  decide

/-- A response with a length set by hand. -/
def mismeasured : List Edit := [.header (utf8 "content-length") (utf8 "5"), .body "hi"]

/-- The head of the response names two lengths. -/
theorem not_statesLength_mismeasured :
    (∀ e ∈ mismeasured, e.IsInline) ∧ (build mismeasured).status ≠ .noContent ∧
      ¬ (build mismeasured).StatesLength := by
  have h : ∀ e ∈ mismeasured, e.IsInline := by
    simp only [mismeasured, List.forall_mem_cons, Edit.IsInline]
    exact ⟨⟨⟨by decide, by decide⟩, by decide, by decide⟩, trivial, fun _ h => nomatch h⟩
  have hread : readHead? (build mismeasured).render = some
      ([utf8 "HTTP/1.1 200 OK", utf8 "Content-Type: text/plain", utf8 "Content-Length: 2",
        utf8 "content-length: 5"], utf8 "hi") := by decide +kernel
  have htwo : ([utf8 "HTTP/1.1 200 OK", utf8 "Content-Type: text/plain", utf8 "Content-Length: 2",
      utf8 "content-length: 5"].filter NamesLength).length = 2 := by decide
  refine ⟨h, by decide, ?_⟩
  rintro ⟨_, _, hhead, hstates⟩
  rw [hread] at hhead
  obtain ⟨rfl, rfl⟩ := Prod.mk.inj (Option.some.inj hhead)
  rw [if_neg (by decide)] at hstates
  obtain ⟨line, hline, -⟩ := hstates
  rw [hline] at htwo
  exact absurd htwo (by simp)

end Response

end HttpServer
