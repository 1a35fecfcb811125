import HttpServer.Proofs.Holding

/-!
# Where a pending parser stands

While a request is pending, what the parser that is fed bytes was fed is the start of a
message : whole lines of the head and a part of one more, or the whole head and a part of the
body. `ByteParser.Place` says which parser has come of which bytes. Every byte that leaves the
request pending leads from one place to another (`ByteParser.Place.feed`), so a run does
(`ByteParser.Feeds.place`).

The empty line that ends a head is among the bytes exactly if the head is over
(`ByteParser.Place.not_hasHeadEnd`, `Message.hasHeadEnd_head`).
-/

namespace HttpServer

/-! ## The end of a head -/

/-- The bytes hold the empty line that ends a head. -/
def HasHeadEnd (l : Bytes) : Prop := lf :: crlf <:+: l

instance (l : Bytes) : Decidable (HasHeadEnd l) := inferInstanceAs (Decidable (_ <:+: _))

variable {l l' : Bytes} {b : UInt8}

theorem HasHeadEnd.append (h : HasHeadEnd l) (l' : Bytes) : HasHeadEnd (l ++ l') :=
  h.trans (List.infix_append' [] l l')

/-- A byte makes it a head only as the last one of the empty line. -/
theorem hasHeadEnd_concat : HasHeadEnd (l ++ [b]) ↔ HasHeadEnd l ∨ b = lf ∧ [lf, cr] <:+ l := by
  unfold HasHeadEnd
  rw [List.infix_concat_iff, or_comm, show lf :: crlf = [lf, cr] ++ [lf] from rfl]
  refine or_congr_right ?_
  constructor
  · rintro ⟨t, ht⟩
    rw [← List.append_assoc] at ht
    obtain ⟨h, hb⟩ := List.append_inj' ht rfl
    exact ⟨(List.singleton_inj.1 hb).symm, t, h⟩
  · rintro ⟨rfl, t, rfl⟩
    exact ⟨t, by simp⟩

/-- Bytes within a line end no head. -/
theorem not_hasHeadEnd_append (h : ¬HasHeadEnd l) (hl : lf ∉ l') : ¬HasHeadEnd (l ++ l') := by
  induction l' using List.reverseRecOn with
  | nil => rwa [List.append_nil]
  | append_singleton l' b ih =>
    rw [List.mem_append, List.mem_singleton, not_or] at hl
    rw [← List.append_assoc, hasHeadEnd_concat]
    rintro (h' | ⟨rfl, -⟩)
    · exact ih hl.1 h'
    · exact hl.2 rfl

/-- A line that is not empty ends no head. -/
theorem not_hasHeadEnd_append_line (h : ¬HasHeadEnd l) (hend : l.getLast? = some lf)
    (hl : lf ∉ l') (hne : l' ≠ [cr]) : ¬HasHeadEnd (l ++ l' ++ [lf]) := by
  rw [hasHeadEnd_concat]
  rintro (h' | ⟨-, t, ht⟩)
  · exact not_hasHeadEnd_append h hl h'
  · rcases List.eq_nil_or_concat l' with rfl | ⟨x, c, rfl⟩
    · rw [List.append_nil] at ht
      simp [← ht, cr, lf] at hend
    · have hx : t ++ [lf] ++ [cr] = l ++ x ++ [c] := by simpa using ht
      obtain ⟨hx, -⟩ := List.append_inj' hx rfl
      -- the byte before the last one is a line end, which is no part of the line
      rcases List.eq_nil_or_concat x with rfl | ⟨y, d, rfl⟩
      · have hc := congrArg List.getLast? ht
        exact hne (by simpa using hc.symm)
      · rw [List.concat_eq_append, ← List.append_assoc] at hx
        obtain rfl := List.singleton_inj.1 (List.append_inj' hx rfl).2
        simp at hl

namespace Message

variable {m : Message} {limits : Limits}

/-- The lines of the head before the empty one. -/
def headLines (m : Message) : Bytes :=
  startLine m.method m.path ++ m.headers.flatMap HeaderLine.render

theorem head_eq (m : Message) : m.head = m.headLines ++ crlf := rfl

theorem getLast?_headLines (m : Message) : m.headLines.getLast? = some lf := by
  obtain ⟨method, path, headers, body⟩ := m
  unfold headLines
  induction headers using List.reverseRecOn with
  | nil => simp [startLine, crlf, List.getLast?_cons]
  | append_singleton hs h => simp [HeaderLine.render, crlf, List.getLast?_cons]

/-- A whole head has its end. -/
theorem hasHeadEnd_head (m : Message) : HasHeadEnd m.head := by
  obtain ⟨d, hd⟩ := List.getLast?_eq_some_iff.1 m.getLast?_headLines
  rw [head_eq, hd]
  exact ⟨d, [], by simp⟩

theorem not_hasHeadEnd_headLines (h : m.HeadFits limits) : ¬HasHeadEnd m.headLines := by
  obtain ⟨method, path, headers, body⟩ := m
  obtain ⟨hm, hp, hv, -, -⟩ := h
  dsimp only at hm hp hv
  induction headers using List.reverseRecOn with
  | nil =>
    have hline : headLines ⟨method, path, [], body⟩ =
        method.token ++ [sp] ++ path ++ [sp] ++ ByteParser.version ++ [cr] ++ [lf] := by
      simp [headLines, startLine, crlf]
    have hlf := (show ByteParser.ReadingStart {} _ _ from .newLine hm hp).lf_not_mem
    rw [hline, hasHeadEnd_concat]
    rintro (⟨s, t, h⟩ | ⟨-, t, h⟩)
    · rw [← h] at hlf
      simp at hlf
    · rw [← h] at hlf
      simp at hlf
  | append_singleton hs h ih =>
    rw [List.forall_mem_append, List.forall_mem_singleton] at hv
    have hline : headLines ⟨method, path, hs ++ [h], body⟩ =
        headLines ⟨method, path, hs, body⟩ ++
          (h.key ++ [colon, sp] ++ h.value ++ [cr]) ++ [lf] := by
      simp [headLines, HeaderLine.render, crlf]
    have hlf := (show ByteParser.ReadingHeader {} {} _ _ from .newLine hv.2).lf_not_mem
    rw [hline]
    refine not_hasHeadEnd_append_line (ih hv.1) (getLast?_headLines _) hlf fun h' => ?_
    have := congrArg List.length h'
    simp at this
    omega

/-- A head with one more header line. -/
theorem HeadFits.concat (h : m.HeadFits limits) {g : HeaderLine} (hg : g.Valid)
    (hlen : g.render.length ≤ limits.lineCap) :
    HeadFits { m with headers := m.headers ++ [g] } limits := by
  obtain ⟨h1, h2, h3, h4, h5⟩ := h
  exact ⟨h1, h2, List.forall_mem_append.2 ⟨h3, by simpa using hg⟩, h4,
    List.forall_mem_append.2 ⟨h5, List.forall_mem_singleton.2 hlen⟩⟩

end Message

namespace ByteParser

variable {limits : Limits} {p p' : ByteParser}

/-! ## Places -/

/-- What a parser whose request is pending has come to by these bytes. -/
inductive Place (limits : Limits) : Bytes → ByteParser → Prop where
  /-- It reads the start line. -/
  | startLine {l : Bytes} {p : ByteParser} : ReadingStart limits l p →
    l.length ≤ limits.lineCap → Place limits l p
  /-- It has read a start line and header lines, and reads one more header line. -/
  | header {m : Message} {l : Bytes} {p : ByteParser} : m.HeadFits limits →
    ReadingHeader limits m.headRequest l p → l.length ≤ limits.lineCap →
    Place limits (m.headLines ++ l) p
  /-- It has read a head, and reads the body. -/
  | body {m : Message} {l : Bytes} : m.HeadFits limits → m.declared ≤ limits.maxBody →
    l.length < m.declared →
    Place limits (m.head ++ l) (afterHead limits m.headRequest .body l.toArray)

theorem place_start (limits : Limits) : Place limits [] (ofLimits limits) :=
  .startLine .start (Nat.zero_le _)

/-- The end of the head leads to the body. -/
theorem place_headEnd {m : Message} (hm : m.HeadFits limits)
    (h : (inLine limits m.headRequest .endLine [] [] 2).headEnd = (.ok .pending, p)) :
    Place limits (m.head ++ []) p := by
  have hc := contentLength_headRequest hm
  unfold headEnd at h
  split at h
  · cases h
  · rename_i hmax
    split at h
    · cases h
    · rename_i h0
      cases h
      exact .body hm (hc ▸ Nat.le_of_not_lt hmax) (hc ▸ Nat.pos_of_ne_zero h0)

/-- A byte that leaves the request pending leads to the next place. -/
theorem Place.feed (h : Place limits l p) (hb : p.feed b = (.ok .pending, p')) :
    Place limits (l ++ [b]) p' := by
  -- a line that is full takes no byte
  have hroom {l : Bytes} {p : ByteParser} (hs : p.state.inHead = true) (hp : p.limits = limits)
      (hlen : p.lineLength = l.length) (hle : l.length ≤ limits.lineCap)
      (hb : p.feed b = (.ok .pending, p')) : l.length < limits.lineCap := by
    refine Nat.lt_of_le_of_ne hle fun hfull => ?_
    obtain ⟨q, hq⟩ := feed_of_full hs (by rw [hp, hlen, hfull]) b
    cases hb.symm.trans hq
  cases h with
  | startLine h hle =>
    have hlt := hroom h.inHead h.limits_eq h.lineLength_eq hle hb
    have hbyte := h.feed hlt b
    rw [hb] at hbyte
    cases hbyte with
    | within h' => exact .startLine h' (by simpa [Nat.succ_le_iff] using hlt)
    | @line method path hm ht hl =>
      have hfits : Message.HeadFits ⟨method, path, [], []⟩ limits :=
        ⟨hm, ht, by simp, by
          rw [← limits.lineCap_eq, ← hl]
          simpa [Nat.succ_le_iff] using hlt, by simp⟩
      have hplace := Place.header hfits (.start limits _) (Nat.zero_le _)
      rw [Message.headLines, List.flatMap_nil, List.append_nil, List.append_nil, ← hl] at hplace
      exact hplace
  | @header m l _ hm h hle =>
    have hlt := hroom h.inHead h.limits_eq h.lineLength_eq hle hb
    have hbyte := h.feed hlt b
    rw [hb] at hbyte
    rw [List.append_assoc]
    generalize hx : (Except.ok Progress.pending, p') = x at hbyte
    cases hbyte with
    | within h' =>
      cases hx
      exact .header hm h' (by simpa [Nat.succ_le_iff] using hlt)
    | emptyLine hl =>
      rw [hl, ← Message.head_eq, ← List.append_nil m.head]
      exact place_headEnd hm hx.symm
    | @line g hg hl =>
      cases hx
      have hfits := hm.concat hg (by rw [← hl]; simpa [Nat.succ_le_iff] using hlt)
      have hplace := Place.header hfits (.start limits _) (Nat.zero_le _)
      rw [Message.headRequest, Message.readHeaders_concat] at hplace
      simpa [Message.headLines, Message.headRequest, hl] using hplace
    | rejected => cases hx
  | @body m l hm hmax hlt =>
    have hc := contentLength_headRequest hm
    rw [feed_body rfl] at hb
    split at hb
    · cases hb
    · rename_i hend
      cases hb
      have hne : l.length + 1 ≠ m.declared := hc ▸ hend
      have hplace : Place limits (m.head ++ (l ++ [b])) _ := .body hm hmax (by simp; omega)
      rw [← List.push_toArray] at hplace
      rw [List.append_assoc]
      exact hplace

theorem Feeds.place (h : Feeds p l' p') (hp : Place limits l p) : Place limits (l ++ l') p' := by
  induction h generalizing l with
  | nil => rwa [List.append_nil]
  | cons hb _ ih => simpa using ih (hp.feed hb)

/-- What a run of a new parser leads to. -/
theorem place_of_feeds (h : Feeds (ofLimits limits) l p) : Place limits l p :=
  h.place (place_start limits)

/-- A parser that reads the head was not fed the end of one. -/
theorem Place.not_hasHeadEnd (h : Place limits l p) (hs : p.state.inHead = true) :
    ¬HasHeadEnd l := by
  cases h with
  | startLine h =>
    intro h'
    exact h.lf_not_mem (h'.subset (by simp))
  | header hm h => exact not_hasHeadEnd_append (Message.not_hasHeadEnd_headLines hm) h.lf_not_mem
  | body => cases hs

end ByteParser

end HttpServer
