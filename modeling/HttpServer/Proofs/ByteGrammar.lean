import HttpServer.Proofs.Feeding
import HttpServer.Proofs.Grammar
import Mathlib.Tactic.SplitIfs

/-!
# What a line means to the parser that is fed bytes

The parser that is fed bytes never sees a line as a whole. `ReadingStart` and
`ReadingHeader` say for every place of a line how the word, the key, the length and the
request of the parser come from the bytes of the line so far. Every byte keeps them
(`ReadingStart.lineInvariant`, `ReadingHeader.lineInvariant`), so the line end finds the
parser in one of a few situations (`ReadingStart.feed`, `ReadingHeader.feed`), and a line that
is none of the grammar is rejected with the code of its kind (`stopsAt_startLine`,
`stopsAt_header`).

In the other direction every line of the grammar that is within the limit is taken as a
whole (`feeds_startLine`, `feeds_header`, `feeds_emptyLine`).
-/

namespace HttpServer

namespace ByteParser

variable {limits : Limits} {r : Request} {p : ByteParser} {l : Bytes}

theorem eq_lf_of_append_eq {b : UInt8} {l l' : Bytes} (h : l ++ [b] = l' ++ crlf) : b = lf := by
  have := congrArg List.getLast? h
  simpa [crlf] using this

/-- The parser at the start of a header line. -/
def atHeader (limits : Limits) (r : Request) : ByteParser := inLine limits r .headerKey [] [] 0

/-! ## The start line -/

/-- The parser has read these bytes of the start line. -/
inductive ReadingStart (limits : Limits) : Bytes → ByteParser → Prop where
  | start : ReadingStart limits [] (ofLimits limits)
  | method {t : Bytes} : t ≠ [] → (∀ b ∈ t, isAlpha b) →
    ReadingStart limits t (inLine limits {} .method [] t t.length)
  | methodEnd {m : Method} : m ∈ Method.named →
    ReadingStart limits (m.token ++ [sp])
      (inLine limits { method := m } .space1 [] [] (m.token.length + 1))
  | path {m : Method} {t : Bytes} : m ∈ Method.named → Message.ValidPath t →
    ReadingStart limits (m.token ++ [sp] ++ t)
      (inLine limits { method := m } .path [] t (m.token.length + 1 + t.length))
  | pathEnd {m : Method} {t : Bytes} : m ∈ Method.named → Message.ValidPath t →
    ReadingStart limits (m.token ++ [sp] ++ t ++ [sp])
      (inLine limits (Message.startRequest m t) .space2 [] [] (m.token.length + 1 + t.length + 1))
  | inVersion {m : Method} {t v w : Bytes} : m ∈ Method.named → Message.ValidPath t →
    version = v ++ w → v ≠ [] →
    ReadingStart limits (m.token ++ [sp] ++ t ++ [sp] ++ v)
      (inLine limits (Message.startRequest m t) .version [] v
        (m.token.length + 1 + t.length + 1 + v.length))
  | newLine {m : Method} {t : Bytes} : m ∈ Method.named → Message.ValidPath t →
    ReadingStart limits (m.token ++ [sp] ++ t ++ [sp] ++ version ++ [cr])
      (inLine limits (Message.startRequest m t) .newLine [] []
        (m.token.length + 1 + t.length + 1 + version.length + 1))

namespace ReadingStart

theorem limits_eq (h : ReadingStart limits l p) : p.limits = limits := by
  cases h <;> rfl

theorem inStartLine (h : ReadingStart limits l p) : p.state.inStartLine = true := by
  cases h <;> rfl

theorem inHead (h : ReadingStart limits l p) : p.state.inHead = true := by
  cases h <;> rfl

theorem lineLength_eq (h : ReadingStart limits l p) : p.lineLength = l.length := by
  cases h <;> simp [inLine, ofLimits] <;> omega

theorem lf_not_mem (h : ReadingStart limits l p) : lf ∉ l := by
  have htoken (m : Method) : lf ∉ m.token := not_mem_of_class (by decide) Method.token_alpha
  have hpath {t : Bytes} (ht : Message.ValidPath t) : lf ∉ t :=
    not_mem_of_class (by decide) ht.bytes
  have hversion {v w : Bytes} (h : version = v ++ w) : lf ∉ v := fun hm =>
    absurd (show lf ∈ version from h ▸ List.mem_append_left w hm) (by decide)
  have hsep : lf ≠ sp ∧ lf ≠ cr := by decide
  cases h with
  | start => simp
  | method _ ht => exact not_mem_of_class (by decide) ht
  | methodEnd => simp [htoken, hsep]
  | path _ ht => simp [htoken, hpath ht, hsep]
  | pathEnd _ ht => simp [htoken, hpath ht, hsep]
  | inVersion _ ht hv => simp [htoken, hpath ht, hversion hv, hsep]
  | newLine _ ht => simp [htoken, hpath ht, hversion (List.append_nil _).symm, hsep]

end ReadingStart

/-- What the last of these bytes of the start line has led to. -/
inductive StartByte (limits : Limits) (l : Bytes) :
    Except ParseError Progress × ByteParser → Prop where
  /-- The line goes on. -/
  | within {p : ByteParser} : ReadingStart limits l p → StartByte limits l (.ok .pending, p)
  /-- A line of the grammar has ended. -/
  | line {m : Method} {t : Bytes} : m ∈ Method.named → Message.ValidPath t →
    l = Message.startLine m t →
    StartByte limits l (.ok .pending, atHeader limits (Message.startRequest m t))
  /-- The byte is rejected. -/
  | rejected {e : ParseError} {p : ByteParser} : e.code = -2 → StartByte limits l (.error e, p)

theorem ReadingStart.feed (h : ReadingStart limits l p) (hlen : l.length < limits.lineCap)
    (b : UInt8) : StartByte limits (l ++ [b]) (p.feed b) := by
  cases h with
  | start =>
    rw [show ofLimits limits = inLine limits {} .start [] [] 0 from rfl,
      feed_inLine rfl (by simpa using hlen), step_start]
    split_ifs with hb
    · exact .within (.method (by simp) (by simpa using hb))
    · exact .rejected rfl
  | method hne ht =>
    rw [feed_inLine rfl hlen, step_method]
    split_ifs with hsp hm hb
    · exact .rejected rfl
    · obtain ⟨hnamed, htoken⟩ := Method.of_ofToken_ne_invalid hm
      subst hsp
      have h : ReadingStart limits ((Method.ofToken l).token ++ [sp]) _ := .methodEnd hnamed
      rw [htoken] at h
      exact .within h
    · have ht' : ∀ c ∈ l ++ [b], isAlpha c := by simpa [or_imp, forall_and, hb] using ht
      exact .within (by simpa using ReadingStart.method (by simp) ht')
    · exact .rejected rfl
  | methodEnd hm =>
    rw [feed_inLine rfl (by simpa using hlen), step_space1]
    split_ifs with hb
    · subst hb
      have ht : Message.ValidPath [slash] := ⟨rfl, List.all_eq_true.1 (by decide)⟩
      exact .within (by simpa using ReadingStart.path hm ht)
    · exact .rejected rfl
  | @path m t hm ht =>
    rw [feed_inLine rfl (by simp at hlen; omega), step_path]
    split_ifs with hsp hb
    · subst hsp
      exact .within (.pathEnd hm ht)
    · have ht' : Message.ValidPath (t ++ [b]) :=
        ⟨by simp [List.head?_append, ht.head], by simpa [or_imp, forall_and, hb] using ht.bytes⟩
      exact .within (by simpa [Nat.add_assoc] using ReadingStart.path hm ht')
    · exact .rejected rfl
  | @pathEnd m t hm ht =>
    rw [feed_inLine rfl (by simp at hlen; omega), step_space2]
    split_ifs with hb
    · subst hb
      have hv : version = [72] ++ utf8 "TTP/1.1" := by decide
      exact .within (by simpa using ReadingStart.inVersion hm ht hv (by simp))
    · exact .rejected rfl
  | @inVersion m t v w hm ht hv hne =>
    rw [feed_inLine rfl (by simp at hlen; omega), step_version]
    split_ifs with hcr hb
    · obtain ⟨h8, rfl⟩ := hcr
      obtain rfl : w = [] := by
        have := congrArg List.length hv
        rw [List.length_append, h8, show version.length = 8 by decide] at this
        exact List.eq_nil_of_length_eq_zero (by omega)
      rw [List.append_nil] at hv
      subst hv
      exact .within (.newLine hm ht)
    · obtain ⟨w', rfl⟩ : ∃ w', w = b :: w' := by
        rw [hv, List.getElem?_append_right (Nat.le_refl _), Nat.sub_self] at hb
        cases w with
        | nil => simp at hb
        | cons c w' => exact ⟨w', by simpa using hb⟩
      have hv' : version = (v ++ [b]) ++ w' := by simpa using hv
      exact .within (by simpa [Nat.add_assoc] using ReadingStart.inVersion hm ht hv' (by simp))
    · exact .rejected rfl
  | @newLine m t hm ht =>
    rw [feed_inLine rfl (by simp at hlen; omega), step_newLine]
    split_ifs with hb
    · subst hb
      exact .line hm ht (by simp [Message.startLine, crlf])
    · exact .rejected rfl

theorem ReadingStart.lineInvariant (limits : Limits) :
    LineInvariant limits (-2) (ReadingStart limits) where
  step {l p b} h hb hlen := by
    have hbyte := h.feed hlen b
    generalize p.feed b = x at hbyte
    cases hbyte with
    | within h' => exact .inl ⟨_, rfl, h'⟩
    | line _ _ hl => exact absurd (eq_lf_of_append_eq hl) hb
    | rejected he => exact .inr ⟨_, _, rfl, he⟩
  full b h hlen := by
    obtain ⟨p', hp⟩ := feed_of_full h.inHead (by rw [h.limits_eq, h.lineLength_eq, hlen]) b
    refine ⟨_, p', hp, ?_⟩
    rw [overlongState, h.inStartLine]
    rfl
  inHead := inHead

/-- A line that is no start line of the grammar is rejected. -/
theorem stopsAt_startLine (hl : lf ∉ l) (hlen : l.length < limits.lineCap)
    (hline : ∀ m t, m ∈ Method.named → Message.ValidPath t → l ++ [lf] ≠ Message.startLine m t) :
    ∃ e, StopsAt (ofLimits limits) (l ++ [lf]) e ∧ e.code = -2 := by
  rcases (ReadingStart.lineInvariant limits).run .start hl (by simpa using Nat.le_of_lt hlen) with
    ⟨p, hf, h⟩ | ⟨e, hst, he⟩
  · have hbyte := h.feed hlen lf
    generalize hx : p.feed lf = x at hbyte
    cases hbyte with
    | within h' => exact absurd h'.lf_not_mem (by simp)
    | line hm ht h' => exact absurd h' (hline _ _ hm ht)
    | rejected he => exact ⟨_, hf.stopsAt hl hx, he⟩
  · exact ⟨e, hst.append _, he⟩

theorem feeds_method {t : Bytes} (ht : ∀ b ∈ t, isAlpha b) (hne : t ≠ [])
    (hlen : t.length ≤ limits.lineCap) (r : Request) :
    Feeds (inLine limits r .start [] [] 0) t (inLine limits r .method [] t t.length) := by
  obtain ⟨b, t, rfl⟩ := List.exists_cons_of_ne_nil hne
  rw [List.forall_mem_cons] at ht
  rw [List.length_cons] at hlen
  have hfirst : (inLine limits r .start [] [] 0).feed b =
      (.ok .pending, inLine limits r .method [] [b] 1) := by
    rw [feed_inLine rfl (by omega), step_start, if_pos ht.1, List.nil_append]
  have hstep (token : Bytes) (n : Nat) (b : UInt8) (hb : isAlpha b = true) :
      (inLine limits r .method [] token n).step b =
        (inLine limits r .method [] token n).gather b .method := by
    have hsp : b ≠ sp := fun h => by subst h; revert hb; decide
    rw [step_method, if_neg hsp, if_pos hb, gather_inLine]
  have hrest : Feeds (inLine limits r .method [] [b] 1) t
      (inLine limits r .method [] ([b] ++ t) (1 + t.length)) :=
    feeds_gather rfl hstep ht.2 (by omega)
  rw [List.length_cons, Nat.add_comm]
  exact .cons hfirst hrest

theorem feeds_path {t t' : Bytes} {n : Nat} (ht : ∀ b ∈ t, isPathByte b)
    (hlen : n + t.length ≤ limits.lineCap) :
    Feeds (inLine limits r .path [] t' n) t
      (inLine limits r .path [] (t' ++ t) (n + t.length)) := by
  refine feeds_gather rfl (fun token n b hb => ?_) ht hlen
  have hsp : b ≠ sp := fun h => by subst h; revert hb; decide
  rw [step_path, if_neg hsp, if_pos hb, gather_inLine]

theorem feeds_version {v w : Bytes} {n : Nat} (h : version = v ++ w)
    (hlen : n + w.length ≤ limits.lineCap) :
    Feeds (inLine limits r .version [] v n) w
      (inLine limits r .version [] version (n + w.length)) := by
  induction w generalizing v n with
  | nil => simpa [h] using Feeds.nil _
  | cons b w ih =>
    rw [List.length_cons] at hlen
    have h8 : version.length = 8 := by decide
    have hfeed : (inLine limits r .version [] v n).feed b =
        (.ok .pending, inLine limits r .version [] (v ++ [b]) (n + 1)) := by
      rw [feed_inLine rfl (by omega), step_version, if_neg, if_pos (by simp [h])]
      rw [h, List.length_append, List.length_cons] at h8
      omega
    have := ih (v := v ++ [b]) (n := n + 1) (by simpa using h) (by omega)
    rw [Nat.add_right_comm] at this
    exact .cons hfeed this

/-- The start line of the grammar is taken as a whole, whatever the request before it. -/
theorem feeds_startLine_into {m : Method} {t : Bytes} (hm : m ∈ Method.named)
    (ht : Message.ValidPath t) (hlen : (Message.startLine m t).length ≤ limits.lineCap)
    (r : Request) :
    Feeds (inLine limits r .start [] [] 0) (Message.startLine m t)
      (atHeader limits { r with method := m, path := Path.clean t }) := by
  obtain ⟨t, rfl⟩ : ∃ t', t = slash :: t' := List.head?_eq_some_iff.1 ht.head
  obtain ⟨w, hv, hw⟩ : ∃ w, version = 72 :: w ∧ w.length = 7 :=
    ⟨version.tail, by decide, by decide⟩
  have hbytes := ht.bytes
  simp only [List.forall_mem_cons] at hbytes
  simp only [Message.startLine, crlf, List.length_append, List.length_cons, List.length_nil,
    show version.length = 8 by decide] at hlen
  have hmethod : Feeds (inLine limits r .start [] [] 0) m.token
      (inLine limits r .method [] m.token m.token.length) :=
    feeds_method Method.token_alpha Method.token_ne_nil (by omega) r
  generalize hk : m.token.length = k at *
  have hsp : (inLine limits r .method [] m.token k).feed sp =
      (.ok .pending, inLine limits { r with method := m } .space1 [] [] (k + 1)) := by
    rw [feed_inLine rfl (by omega), step_method, if_pos rfl, Method.ofToken_token hm, if_neg]
    rintro rfl
    exact Method.invalid_not_mem_named hm
  have hslash : (inLine limits { r with method := m } .space1 [] [] (k + 1)).feed slash =
      (.ok .pending, inLine limits { r with method := m } .path [] [slash] (k + 2)) := by
    rw [feed_inLine rfl (by omega), step_space1, if_pos rfl, List.nil_append]
  have hpath : Feeds (inLine limits { r with method := m } .path [] [slash] (k + 2)) t
      (inLine limits { r with method := m } .path [] ([slash] ++ t) (k + 2 + t.length)) :=
    feeds_path hbytes.2 (by omega)
  generalize hn : k + 2 + t.length = n at *
  have hsp' : (inLine limits { r with method := m } .path [] (slash :: t) n).feed sp =
      (.ok .pending, inLine limits { r with method := m, path := Path.clean (slash :: t) }
        .space2 [] [] (n + 1)) := by
    rw [feed_inLine rfl (by omega), step_path, if_pos rfl]
  generalize { r with method := m, path := Path.clean (slash :: t) } = r' at *
  have hfirst : (inLine limits r' .space2 [] [] (n + 1)).feed 72 =
      (.ok .pending, inLine limits r' .version [] [72] (n + 2)) := by
    rw [feed_inLine rfl (by omega), step_space2, if_pos rfl, List.nil_append]
  have hversion : Feeds (inLine limits r' .version [] [72] (n + 2)) w
      (inLine limits r' .version [] version (n + 2 + w.length)) := feeds_version hv (by omega)
  rw [hw] at hversion
  have hcr : (inLine limits r' .version [] version (n + 2 + 7)).feed cr =
      (.ok .pending, inLine limits r' .newLine [] [] (n + 10)) := by
    rw [feed_inLine rfl (by omega), step_version, if_pos ⟨by decide, rfl⟩]
  have hlf : (inLine limits r' .newLine [] [] (n + 10)).feed lf =
      (.ok .pending, atHeader limits r') := by
    rw [feed_inLine rfl (by omega), step_newLine, if_pos rfl, atHeader]
  have := hmethod.append (.cons hsp (.cons hslash (hpath.append (.cons hsp' (.cons hfirst
    (hversion.append (.cons hcr (.single hlf))))))))
  simpa [Message.startLine, crlf, hv] using this

/-- The start line of the grammar is taken as a whole. -/
theorem feeds_startLine {m : Method} {t : Bytes} (hm : m ∈ Method.named)
    (ht : Message.ValidPath t) (hlen : (Message.startLine m t).length ≤ limits.lineCap) :
    Feeds (ofLimits limits) (Message.startLine m t)
      (atHeader limits (Message.startRequest m t)) :=
  feeds_startLine_into hm ht hlen {}

/-! ## Header lines -/

/-- The parser has read these bytes of a header line, with the request before the line. -/
inductive ReadingHeader (limits : Limits) (r : Request) : Bytes → ByteParser → Prop where
  | key {k : Bytes} : (∀ b ∈ k, isKeyByte b) →
    ReadingHeader limits r k (inLine limits r .headerKey [] k k.length)
  | keyEnd {k : Bytes} : k ≠ [] → (∀ b ∈ k, isKeyByte b) →
    ReadingHeader limits r (k ++ [colon]) (inLine limits r .colon k [] (k.length + 1))
  | blank {k : Bytes} : k ≠ [] → (∀ b ∈ k, isKeyByte b) →
    ReadingHeader limits r (k ++ [colon, sp])
      (inLine limits r .space3 k [] (k.length + 2))
  | value {k v : Bytes} : k ≠ [] → (∀ b ∈ k, isKeyByte b) → v ≠ [] → (∀ b ∈ v, isValueByte b) →
    ReadingHeader limits r (k ++ [colon, sp] ++ v)
      (inLine limits r .headerValue k v (k.length + 2 + v.length))
  | newLine {h : HeaderLine} : h.Valid →
    ReadingHeader limits r (h.key ++ [colon, sp] ++ h.value ++ [cr])
      (inLine limits (r.withHeader h.key h.value) .headerNewLine [] []
        (h.key.length + 2 + h.value.length + 1))
  | empty : ReadingHeader limits r [cr] (inLine limits r .endLine [] [] 1)

namespace ReadingHeader

theorem start (limits : Limits) (r : Request) : ReadingHeader limits r [] (atHeader limits r) :=
  .key (k := []) (by simp)

theorem limits_eq (h : ReadingHeader limits r l p) : p.limits = limits := by
  cases h <;> rfl

theorem inHead (h : ReadingHeader limits r l p) : p.state.inHead = true := by
  cases h <;> rfl

theorem inStartLine (h : ReadingHeader limits r l p) : p.state.inStartLine = false := by
  cases h <;> rfl

theorem lineLength_eq (h : ReadingHeader limits r l p) : p.lineLength = l.length := by
  cases h <;> simp [inLine] <;> omega

theorem lf_not_mem (h : ReadingHeader limits r l p) : lf ∉ l := by
  have hkey {k : Bytes} (hk : ∀ b ∈ k, isKeyByte b) : lf ∉ k := not_mem_of_class (by decide) hk
  have hvalue {v : Bytes} (hv : ∀ b ∈ v, isValueByte b) : lf ∉ v :=
    not_mem_of_class (by decide) hv
  have hsep : lf ≠ colon ∧ lf ≠ sp ∧ lf ≠ cr := by decide
  cases h with
  | key hk => exact hkey hk
  | keyEnd _ hk => simp [hkey hk, hsep]
  | blank _ hk => simp [hkey hk, hsep]
  | value _ hk _ hv => simp [hkey hk, hvalue hv, hsep]
  | newLine hh => simp [hkey hh.key_bytes, hvalue hh.value_bytes, hsep]
  | empty => simp [hsep]

end ReadingHeader

/-- What the last of these bytes of a header line has led to. -/
inductive HeaderByte (limits : Limits) (r : Request) (l : Bytes) :
    Except ParseError Progress × ByteParser → Prop where
  /-- The line goes on. -/
  | within {p : ByteParser} : ReadingHeader limits r l p → HeaderByte limits r l (.ok .pending, p)
  /-- The empty line has ended, and with it the head. -/
  | emptyLine : l = crlf → HeaderByte limits r l (inLine limits r .endLine [] [] 2).headEnd
  /-- A line of the grammar has ended. -/
  | line {h : HeaderLine} : h.Valid → l = h.render →
    HeaderByte limits r l (.ok .pending, atHeader limits (r.withHeader h.key h.value))
  /-- The byte is rejected. -/
  | rejected {e : ParseError} {p : ByteParser} : e.code = -3 → HeaderByte limits r l (.error e, p)

theorem ReadingHeader.feed (h : ReadingHeader limits r l p) (hlen : l.length < limits.lineCap)
    (b : UInt8) : HeaderByte limits r (l ++ [b]) (p.feed b) := by
  cases h with
  | key hk =>
    rw [feed_inLine rfl hlen, step_headerKey]
    split_ifs with hcr hcolon hb
    · obtain ⟨rfl, rfl⟩ := hcr
      exact .within .empty
    · obtain ⟨rfl, hne⟩ := hcolon
      exact .within (.keyEnd hne hk)
    · have hk' : ∀ c ∈ l ++ [b], isKeyByte c := by simpa [or_imp, forall_and, hb] using hk
      exact .within (by simpa using ReadingHeader.key hk')
    · exact .rejected rfl
  | keyEnd hne hk =>
    rw [feed_inLine rfl (by simpa using hlen), step_colon]
    split_ifs with hb
    · subst hb
      exact .within (by simpa using ReadingHeader.blank hne hk)
    · exact .rejected rfl
  | blank hne hk =>
    rw [feed_inLine rfl (by simpa using hlen), step_space3]
    split_ifs with hb
    · have hv : ∀ c ∈ [b], isValueByte c := by simpa using hb
      exact .within (by simpa using ReadingHeader.value hne hk (by simp) hv)
    · exact .rejected rfl
  | @value k v hne hk hv hvb =>
    rw [feed_inLine rfl (by simp at hlen; omega), step_headerValue]
    split_ifs with hcr hb
    · subst hcr
      split
      · exact .rejected rfl
      · rename_i r' hset
        obtain ⟨hd, rfl⟩ := (HeaderLine.setHeader?_eq_some_iff (h := ⟨k, v⟩) hv).1 hset
        exact .within (.newLine (h := ⟨k, v⟩) ⟨hne, hk, hv, hvb, hd⟩)
    · have hv' : ∀ c ∈ v ++ [b], isValueByte c := by simpa [or_imp, forall_and, hb] using hvb
      exact .within (by simpa [Nat.add_assoc] using ReadingHeader.value hne hk (by simp) hv')
    · exact .rejected rfl
  | @newLine h hh =>
    rw [feed_inLine rfl (by simp at hlen; omega), step_headerNewLine]
    split_ifs with hb
    · subst hb
      exact .line hh (by simp [HeaderLine.render, crlf])
    · exact .rejected rfl
  | empty =>
    rw [feed_inLine rfl (by simpa using hlen), step_endLine]
    split_ifs with hb
    · subst hb
      exact .emptyLine rfl
    · exact .rejected rfl

theorem ReadingHeader.lineInvariant (limits : Limits) (r : Request) :
    LineInvariant limits (-3) (ReadingHeader limits r) where
  step {l p b} h hb hlen := by
    have hbyte := h.feed hlen b
    generalize p.feed b = x at hbyte
    cases hbyte with
    | within h' => exact .inl ⟨_, rfl, h'⟩
    | emptyLine hl => exact absurd (eq_lf_of_append_eq (hl.trans (List.nil_append _).symm)) hb
    | line _ hl => exact absurd (eq_lf_of_append_eq hl) hb
    | rejected he => exact .inr ⟨_, _, rfl, he⟩
  full b h hlen := by
    obtain ⟨p', hp⟩ := feed_of_full h.inHead (by rw [h.limits_eq, h.lineLength_eq, hlen]) b
    refine ⟨_, p', hp, ?_⟩
    rw [overlongState, h.inStartLine]
    rfl
  inHead := inHead

/-- A line that is neither empty nor a header line of the grammar is rejected. -/
theorem stopsAt_header (hl : lf ∉ l) (hlen : l.length < limits.lineCap) (hempty : l ++ [lf] ≠ crlf)
    (hline : ∀ h : HeaderLine, h.Valid → l ++ [lf] ≠ h.render) :
    ∃ e, StopsAt (atHeader limits r) (l ++ [lf]) e ∧ e.code = -3 := by
  rcases (ReadingHeader.lineInvariant limits r).run (.start limits r) hl
    (by simpa using Nat.le_of_lt hlen) with ⟨p, hf, h⟩ | ⟨e, hst, he⟩
  · have hbyte := h.feed hlen lf
    generalize hx : p.feed lf = x at hbyte
    cases hbyte with
    | within h' => exact absurd h'.lf_not_mem (by simp)
    | emptyLine h' => exact absurd h' hempty
    | line hh h' => exact absurd h' (hline _ hh)
    | rejected he => exact ⟨_, hf.stopsAt hl hx, he⟩
  · exact ⟨e, hst.append _, he⟩

/-- The empty line is taken up to its last byte. -/
theorem feeds_emptyLine (h : 0 < limits.lineCap) (r : Request) :
    Feeds (atHeader limits r) [cr] (inLine limits r .endLine [] [] 1) :=
  .single (by rw [atHeader, feed_inLine rfl h, step_headerKey, if_pos ⟨rfl, rfl⟩])

theorem feeds_key {k : Bytes} (hk : ∀ b ∈ k, isKeyByte b) (hlen : k.length ≤ limits.lineCap) :
    Feeds (atHeader limits r) k (inLine limits r .headerKey [] k k.length) := by
  have hstep (token : Bytes) (n : Nat) (b : UInt8) (hb : isKeyByte b = true) :
      (inLine limits r .headerKey [] token n).step b =
        (inLine limits r .headerKey [] token n).gather b .headerKey := by
    have hcr : b ≠ cr := fun h => by subst h; revert hb; decide
    have hcolon : b ≠ colon := fun h => by subst h; revert hb; decide
    rw [step_headerKey, if_neg (by simp [hcr]), if_neg (by simp [hcolon]), if_pos hb, gather_inLine]
  have h : Feeds (atHeader limits r) k (inLine limits r .headerKey [] ([] ++ k) (0 + k.length)) :=
    feeds_gather rfl hstep hk (by omega)
  simpa using h

theorem feeds_value {k v t : Bytes} {n : Nat} (hv : ∀ b ∈ v, isValueByte b)
    (hlen : n + v.length ≤ limits.lineCap) :
    Feeds (inLine limits r .headerValue k t n) v
      (inLine limits r .headerValue k (t ++ v) (n + v.length)) := by
  refine feeds_gather rfl (fun token n b hb => ?_) hv hlen
  have hcr : b ≠ cr := fun h => by subst h; revert hb; decide
  rw [step_headerValue, if_neg hcr, if_pos hb, gather_inLine]

/-- A header line of the grammar is taken as a whole. -/
theorem feeds_header {h : HeaderLine} (hh : h.Valid) (hlen : h.render.length ≤ limits.lineCap)
    (r : Request) :
    Feeds (atHeader limits r) h.render (atHeader limits (r.withHeader h.key h.value)) := by
  obtain ⟨k, v⟩ := h
  obtain ⟨b, t, rfl⟩ := List.exists_cons_of_ne_nil hh.value_ne_nil
  have hset := hh.setHeader? r
  obtain ⟨hk, hkb, -, hvb, -⟩ := hh
  simp only [List.forall_mem_cons] at hvb
  simp only [HeaderLine.render, crlf, List.length_append, List.length_cons, List.length_nil] at *
  generalize r.withHeader k (b :: t) = r' at *
  have hcolon : (inLine limits r .headerKey [] k k.length).feed colon =
      (.ok .pending, inLine limits r .colon k [] (k.length + 1)) := by
    rw [feed_inLine rfl (by omega), step_headerKey, if_neg (by simp [colon, cr]),
      if_pos ⟨rfl, hk⟩]
  have hblank : (inLine limits r .colon k [] (k.length + 1)).feed sp =
      (.ok .pending, inLine limits r .space3 k [] (k.length + 2)) := by
    rw [feed_inLine rfl (by omega), step_colon, if_pos rfl]
  have hfirst : (inLine limits r .space3 k [] (k.length + 2)).feed b =
      (.ok .pending, inLine limits r .headerValue k [b] (k.length + 3)) := by
    rw [feed_inLine rfl (by omega), step_space3, if_pos hvb.1, List.nil_append]
  have hcr : (inLine limits r .headerValue k (b :: t) (k.length + 3 + t.length)).feed cr =
      (.ok .pending, inLine limits r' .headerNewLine [] [] (k.length + 3 + t.length + 1)) := by
    rw [feed_inLine rfl (by omega), step_headerValue, if_pos rfl, hset]
  have hlf : (inLine limits r' .headerNewLine [] [] (k.length + 3 + t.length + 1)).feed lf =
      (.ok .pending, atHeader limits r') := by
    rw [feed_inLine rfl (by omega), step_headerNewLine, if_pos rfl, atHeader]
  have hvalue : Feeds (inLine limits r .headerValue k [b] (k.length + 3)) t
      (inLine limits r .headerValue k ([b] ++ t) (k.length + 3 + t.length)) :=
    feeds_value hvb.2 (by omega)
  have := (feeds_key hkb (by omega)).append (.cons hcolon (.cons hblank (.cons hfirst
    (hvalue.append (.cons hcr (.single hlf))))))
  simpa using this

end ByteParser

end HttpServer
