import HttpServer.Proofs.Places
import HttpServer.Proofs.Segmentation

/-!
# Whole heads

The bytes that begin with a head of the grammar do so in one way (`Message.head_append_inj`),
because the empty line that ends a head does not occur before. A parser that takes lines comes to
the end of a head exactly where one is (`LineParser.head_of_headFits`,
`LineParser.exists_head_of_head`), however its source gives the bytes and stops.
-/

namespace HttpServer

namespace Message

variable {m m' : Message} {limits : Limits} {l l' : Bytes}

/-- The head up to its last byte. -/
theorem not_hasHeadEnd_headLines_cr (h : m.HeadFits limits) :
    ¬HasHeadEnd (m.headLines ++ [cr]) :=
  not_hasHeadEnd_append (not_hasHeadEnd_headLines h) (by decide)

theorem head_eq_concat (m : Message) : m.head = m.headLines ++ [cr] ++ [lf] := by
  simp [head_eq, crlf]

/-- A head is not the beginning of a longer one. -/
theorem head_append_inj (h : m.HeadFits limits) (h' : m'.HeadFits limits)
    (heq : m.head ++ l = m'.head ++ l') : m.head = m'.head ∧ l = l' := by
  have hshorter {m m' : Message} (h' : m'.HeadFits limits) {x : Bytes}
      (hx : m.head ++ x = m'.head) : x = [] := by
    rcases List.eq_nil_or_concat x with rfl | ⟨y, b, rfl⟩
    · rfl
    · rw [List.concat_eq_append, ← List.append_assoc, head_eq_concat m'] at hx
      refine absurd (m.hasHeadEnd_head.append y) ?_
      rw [(List.append_inj' hx rfl).1]
      exact not_hasHeadEnd_headLines_cr h'
  rcases List.append_eq_append_iff.1 heq with ⟨x, hx, rfl⟩ | ⟨x, hx, rfl⟩
  · obtain rfl := hshorter h' hx.symm
    exact ⟨by simpa using hx.symm, rfl⟩
  · obtain rfl := hshorter h hx.symm
    exact ⟨by simpa using hx, rfl⟩

/-- A head comes to one request. -/
theorem headRequest_eq_of_head_eq (h : m.HeadFits limits) (h' : m'.HeadFits limits)
    (heq : m.head = m'.head) : m.headRequest = m'.headRequest := by
  rw [head_eq_concat, head_eq_concat] at heq
  have hrun := ByteParser.feeds_head h'
  rw [← headLines, ← (List.append_inj' heq rfl).1] at hrun
  exact congrArg ByteParser.partialRequest ((ByteParser.feeds_head h).unique hrun)

theorem declared_eq_of_head_eq (h : m.HeadFits limits) (h' : m'.HeadFits limits)
    (heq : m.head = m'.head) : m.declared = m'.declared := by
  rw [← ByteParser.contentLength_headRequest h, ← ByteParser.contentLength_headRequest h',
    headRequest_eq_of_head_eq h h' heq]

end Message

/-! ## Taking lines -/

namespace LineParser

open Reader

variable {σ : Type} [Source σ] {P : σ → Bytes → Prop} {Q : σ → Prop} {stop : Option IoKind}
  {limits : Limits} {m : Message} {r r' : Reader σ} {q : Request} {l raw : Bytes}

theorem nextLine_of_line (hP : Source.IsSupply P Q stop) {pre post : Bytes} (hl : lf ∉ pre)
    (hlen : pre.length < limits.lineCap) (hr : r.Holds P (pre ++ lf :: post)) (s : ParseState) :
    ∃ r', (LineParser.mk limits).nextLine r s = (.ok (pre ++ [lf]), r') ∧ r'.Holds P post := by
  obtain ⟨r', hread, hr'⟩ := readLine_of_line hP hl hlen hr
  exact ⟨r', by rw [nextLine, hread], hr'⟩

/-- Header lines of the grammar are taken up to and including the empty line. -/
theorem headers_of_lines (hP : Source.IsSupply P Q stop) {hs : List HeaderLine}
    (hv : ∀ h ∈ hs, h.Valid) (hlen : ∀ h ∈ hs, h.render.length ≤ limits.lineCap) (q : Request)
    (hr : r.Holds P (hs.flatMap HeaderLine.render ++ crlf ++ l)) :
    ∃ r', (LineParser.mk limits).headers r q = (.ok (Message.readHeaders q hs), r') ∧
      r'.Holds P l := by
  induction hs generalizing r q with
  | nil =>
    have hcr : lf ∉ [cr] := by decide
    obtain ⟨r', hline, hr'⟩ := nextLine_of_line hP hcr
      (Nat.lt_of_lt_of_le (by decide) limits.two_le_lineCap) hr .headerValue
    rw [headers_eq, hline]
    exact ⟨r', if_pos rfl, hr'⟩
  | cons h hs ih =>
    rw [List.forall_mem_cons] at hv hlen
    have hpre : h.render = h.key ++ [colon, sp] ++ h.value ++ [cr] ++ [lf] := by
      simp [HeaderLine.render, crlf]
    have hlf := (show ByteParser.ReadingHeader {} {} _ _ from .newLine hv.1).lf_not_mem
    have hshort := hlen.1
    have hlong : 2 < h.render.length := by
      simp [hpre]
      omega
    rw [hpre, List.length_append, List.length_singleton] at hshort
    rw [List.flatMap_cons, hpre, List.append_assoc, List.append_assoc, List.append_assoc,
      List.singleton_append] at hr
    obtain ⟨r', hline, hr'⟩ := nextLine_of_line hP hlf hshort hr .headerValue
    rw [← hpre] at hline
    rw [← List.append_assoc] at hr'
    obtain ⟨r'', hrest, hr''⟩ := ih hv.2 hlen.2 (q.withHeader h.key h.value) hr'
    refine ⟨r'', ?_, hr''⟩
    rw [headers_eq, hline]
    dsimp only
    rw [if_neg fun hc => by simp [hc, crlf] at hlong, if_neg fun hc => by simp [hc] at hlong,
      headerLine_render hv.1]
    exact hrest

/-- A head of the grammar is taken, and what follows it is left. -/
theorem head_of_headFits (hP : Source.IsSupply P Q stop) (h : m.HeadFits limits)
    (hr : r.Holds P (m.head ++ l)) :
    ∃ r', (LineParser.mk limits).head r = (.ok m.headRequest, r') ∧ r'.Holds P l := by
  have hpre : Message.startLine m.method m.path =
      m.method.token ++ [sp] ++ m.path ++ [sp] ++ ByteParser.version ++ [cr] ++ [lf] := by
    simp [Message.startLine, crlf]
  have hlf := (show ByteParser.ReadingStart {} _ _ from
    .newLine h.method_named h.path_valid).lf_not_mem
  have hshort := h.startLine_length
  rw [hpre, List.length_append, List.length_singleton] at hshort
  rw [Message.head, hpre, List.append_assoc, List.append_assoc, List.append_assoc,
    List.singleton_append] at hr
  obtain ⟨r', hline, hr'⟩ := nextLine_of_line hP hlf hshort hr .path
  rw [← hpre] at hline
  rw [← List.append_assoc] at hr'
  obtain ⟨r'', hheaders, hr''⟩ := headers_of_lines hP h.headers_valid h.header_length
    (Message.startRequest m.method m.path) hr'
  refine ⟨r'', ?_, hr''⟩
  rw [head, hline]
  dsimp only
  rw [startLine_startLine h.method_named h.path_valid]
  exact hheaders

/-- A head that is taken stands at the beginning of the bytes. -/
theorem exists_head_of_head (hP : Source.IsSupply P Q stop) (hr : r.Holds P raw)
    (h : (LineParser.mk limits).head r = (.ok q, r')) :
    ∃ (m : Message) (post : Bytes), m.HeadFits limits ∧ raw = m.head ++ post ∧
      q = m.headRequest ∧ r'.Holds P post := by
  have hmemory := holds_withCapacity 0 (MemoryStream.delivers_ofInput raw)
  have hfollows := head_follows (p := ⟨limits⟩) hP MemoryStream.isDelivery
    ⟨raw, List.suffix_rfl, hr, hmemory⟩
  rcases @Agreement.head_or_failure limits _ _ _ _ _ MemoryStream.isDelivery hmemory with
    ⟨e, r₁, he, -⟩ | ⟨m, post, r₁, hok, hm, hraw, hr₁⟩
  · rw [h, he] at hfollows
    cases hfollows
  · rw [h, hok] at hfollows
    cases hfollows with
    | ok _ halike =>
      obtain ⟨l, -, hl, hl₁⟩ := halike
      obtain rfl := hl₁.unique MemoryStream.isDelivery hr₁
      exact ⟨m, l, hm, hraw, rfl, hl⟩

end LineParser

end HttpServer
