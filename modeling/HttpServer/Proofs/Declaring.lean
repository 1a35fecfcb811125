import HttpServer.Proofs.Overflowing
import HttpServer.Proofs.Portions
import HttpServer.Proofs.Resetting

/-!
# The length that a head declares

A head may write down the length of its body in several lines, and each as a run of digits of any
length. The last line counts, and with it the number that its digits denote : counts are held at
`wordMax`, but a limit below `wordMax` tells a larger number from a smaller one all the same.

`ByteParser.Heeds` and `LineParser.Heeds` say what the two parsers make of a head that declares
`n` bytes. If `n` is beyond the limit, they refuse the body with the last byte of the head and
take none of it; otherwise the body they take has exactly `n` bytes, unless there can be no room
for so many : then both panic. `Message.heeds_lastLength` is that they do so for the last length
line of every head of the grammar, and come to the request of the head without the other length
lines (`Message.withLastLength`).
-/

namespace HttpServer

/-! ## The line that counts -/

/-- The line writes down a length. -/
def HeaderLine.isLength (h : HeaderLine) : Bool := h.known? = some .contentLength

theorem lastValue?_cons (p : HeaderLine → Bool) (h : HeaderLine) (hs : List HeaderLine) :
    lastValue? p (h :: hs) =
      (lastValue? p hs).or (if p h then some h.value else none) := by
  rw [lastValue?, List.reverse_cons, List.find?_append, Option.map_or, lastValue?]
  congr 1
  rw [List.find?_singleton]
  split <;> rfl

theorem isSome_lastValue? {p : HeaderLine → Bool} {hs : List HeaderLine} {h : HeaderLine}
    (hh : h ∈ hs) (hp : p h = true) : (lastValue? p hs).isSome := by
  rw [lastValue?, Option.isSome_map, List.find?_isSome]
  exact ⟨h, List.mem_reverse.2 hh, hp⟩

/-- The header lines without the length lines that another one follows. -/
def dropEarlierLengths : List HeaderLine → List HeaderLine
  | [] => []
  | h :: hs =>
    if h.isLength ∧ hs.any HeaderLine.isLength then dropEarlierLengths hs
    else h :: dropEarlierLengths hs

theorem mem_of_mem_dropEarlierLengths {hs : List HeaderLine} {h : HeaderLine}
    (hh : h ∈ dropEarlierLengths hs) : h ∈ hs := by
  induction hs with
  | nil => exact hh
  | cons g hs ih =>
    rw [dropEarlierLengths] at hh
    split at hh
    · exact List.mem_cons_of_mem g (ih hh)
    · rcases List.mem_cons.1 hh with rfl | hh
      · exact List.mem_cons_self
      · exact List.mem_cons_of_mem g (ih hh)

/-- No last value is lost, as long as length lines are not told apart. -/
theorem lastValue?_dropEarlierLengths {p : HeaderLine → Bool}
    (hp : ∀ g h : HeaderLine, g.isLength → h.isLength → p g = true → p h = true)
    (hs : List HeaderLine) : lastValue? p (dropEarlierLengths hs) = lastValue? p hs := by
  induction hs with
  | nil => rfl
  | cons h hs ih =>
    rw [dropEarlierLengths, lastValue?_cons]
    split
    · rename_i hlater
      rw [ih]
      by_cases hph : p h = true
      · obtain ⟨g, hg, hlength⟩ := List.any_eq_true.1 hlater.2
        obtain ⟨v, hv⟩ :=
          Option.isSome_iff_exists.1 (isSome_lastValue? hg (hp h g hlater.1 hlength hph))
        rw [hv, Option.some_or]
      · rw [if_neg hph, Option.or_none]
    · rw [lastValue?_cons, ih]

namespace Message

variable {m : Message} {limits : Limits}

/-- The message without the length lines that another one follows. -/
def withLastLength (m : Message) : Message := { m with headers := dropEarlierLengths m.headers }

/-- Earlier length lines leave no trace in the request. -/
theorem headRequest_withLastLength (hv : ∀ h ∈ m.headers, h.Valid) :
    m.withLastLength.headRequest = m.headRequest := by
  have hv' : ∀ h ∈ dropEarlierLengths m.headers, h.Valid :=
    fun h hh => hv h (mem_of_mem_dropEarlierLengths hh)
  have hfew : Overlays (dropEarlierLengths m.headers) (startRequest m.method m.path)
      m.withLastLength.headRequest := overlays_readHeaders hv' _
  have hall : Overlays m.headers (startRequest m.method m.path) m.headRequest :=
    overlays_readHeaders hv _
  have hother {p : HeaderLine → Bool} (hp : ∀ g, p g = true → g.isLength = false) :
      lastValue? p (dropEarlierLengths m.headers) = lastValue? p m.headers := by
    refine lastValue?_dropEarlierLengths (fun g h hg _ hpg => ?_) m.headers
    rw [hp g hpg] at hg
    cases hg
  have hlength := lastValue?_dropEarlierLengths (p := fun h => h.known? = some .contentLength)
    (fun _ _ _ hh _ => hh) m.headers
  refine Request.ext (hfew.method.trans hall.method.symm) (hfew.path.trans hall.path.symm)
    ?_ ?_ ?_ (Fields.eq_of_get? fun k => ?_) (hfew.body.trans hall.body.symm)
  · rw [hfew.host, hall.host, hother fun g hg => by simp_all [HeaderLine.isLength]]
  · rw [hfew.contentType, hall.contentType, hother fun g hg => by simp_all [HeaderLine.isLength]]
  · rw [hfew.contentLength, hall.contentLength, hlength]
  · rw [hfew.headers, hall.headers, hother fun g hg => by simp_all [HeaderLine.isLength]]

theorem writtenLength_eq {v : Bytes} (h : lastValue? HeaderLine.isLength m.headers = some v) :
    m.writtenLength = Decimal.value v := by
  have hlast : lastValue? (fun h => h.known? = some .contentLength) m.headers = some v := h
  rw [writtenLength, hlast]
  rfl

/-- A limit below the largest count tells a larger length from the others. -/
theorem maxBody_lt_declared_iff (hmax : limits.maxBody < wordMax) :
    limits.maxBody < m.declared ↔ limits.maxBody < m.writtenLength := by
  rw [declared, Nat.lt_min]
  exact and_iff_left hmax

theorem declared_of_le (hmax : limits.maxBody < wordMax) (h : m.writtenLength ≤ limits.maxBody) :
    m.declared = m.writtenLength :=
  Nat.min_eq_left (Nat.le_of_lt (Nat.lt_of_le_of_lt h hmax))

theorem overflows_iff_writtenLength (hmax : limits.maxBody < wordMax) (h : m.HeadFits limits)
    {l : Bytes} : Overflows limits (m.head ++ l) ↔
      m.writtenLength ≤ limits.maxBody ∧ maxPiece < m.writtenLength := by
  rw [overflows_head_iff h, ← Nat.not_lt, maxBody_lt_declared_iff hmax, Nat.not_lt]
  refine and_congr_right fun hle => ?_
  rw [declared_of_le hmax hle]

end Message

/-- A body of which `k` bytes are there is refused, or there can be no room for it, or it is cut
off, or taken. -/
theorem fate_cases (limits : Limits) (n k : Nat) :
    limits.maxBody < n ∨ (n ≤ limits.maxBody ∧ maxPiece < n) ∨
      (n ≤ limits.maxBody ∧ n ≤ maxPiece ∧ k < n) ∨ n ≤ limits.maxBody ∧ n ≤ maxPiece ∧ n ≤ k := by
  omega

/-! ## The parser that is fed bytes -/

namespace ByteParser

variable {limits : Limits} {m : Message} {p p' : ByteParser} {l l' : Bytes}

theorem reads_of_feeds (h : Feeds p l p') (l' : Bytes) :
    p.reads (l ++ l') = l.length + p'.reads l' := by
  induction h with
  | nil p => exact (Nat.zero_add _).symm
  | @cons p p' p'' b l hb _ ih =>
    rw [List.cons_append, reads, hb]
    dsimp only
    rw [ih, List.length_cons, Nat.add_right_comm]

/-- A length beyond the limit is refused with the last byte of the head, and no byte is stored. -/
theorem feedSlice_head_refused (h : m.HeadFits limits) (hmax : limits.maxBody < m.declared)
    (l : Bytes) :
    ∃ p, (ofLimits limits).feedSlice (m.head ++ l) = (.error (.bodyTooLarge m.declared), p) ∧
      p.body = #[] ∧ (ofLimits limits).reads (m.head ++ l) = m.head.length := by
  have hc := contentLength_headRequest h
  have hend : (inLine limits m.headRequest .endLine [] [] 2).headEnd =
      (inLine limits m.headRequest .endLine [] [] 2).reject (.bodyTooLarge m.declared) := by
    rw [headEnd, if_pos (by simpa [inLine, hc] using hmax), ← hc]
    rfl
  have hlast : m.head ++ l = (Message.startLine m.method m.path ++
      m.headers.flatMap HeaderLine.render ++ [cr]) ++ lf :: l := by
    simp [Message.head, crlf]
  have hlen : m.head.length = (Message.startLine m.method m.path ++
      m.headers.flatMap HeaderLine.render ++ [cr]).length + 1 := by
    simp [Message.head, crlf, Nat.add_assoc]
  refine ⟨_, by rw [feedSlice_ofLimits, feedList_head h, hend, reject], rfl, ?_⟩
  rw [hlast, reads_of_feeds (feeds_head h), reads, feed_headEnd, hend, hlen]
  rfl

/-- What the parser makes of a head that declares `n` bytes and comes to the request `q`. -/
structure Heeds (limits : Limits) (head : Bytes) (q : Request) (n : Nat) : Prop where
  /-- The body is refused exactly if it is larger than the limit. -/
  tooLarge_iff (l : Bytes) (k : Nat) :
    (∃ p, (ofLimits limits).feedSlice? (head ++ l) = some (.error (.bodyTooLarge k), p)) ↔
      limits.maxBody < n ∧ k = min n wordMax
  /-- It is refused with the last byte of the head, and none is stored. -/
  refused (l : Bytes) : limits.maxBody < n → (ofLimits limits).reads (head ++ l) = head.length ∧
    ∃ x, (ofLimits limits).feedSlice? (head ++ l) = some x ∧ x.2.body = #[]
  /-- A body within the limit is taken, and nothing behind it. -/
  taken (l : Bytes) : n ≤ limits.maxBody → n ≤ maxPiece → n ≤ l.length →
    ∃ p, (ofLimits limits).feedSlice? (head ++ l) = some (.ok (.complete, head.length + n), p) ∧
      p.request = { q with body := l.take n }
  /-- A body that is not all there leaves the request pending. -/
  pending (l : Bytes) : n ≤ limits.maxBody → n ≤ maxPiece → l.length < n →
    ∃ p, (ofLimits limits).feedSlice? (head ++ l) =
        some (.ok (.pending, head.length + l.length), p) ∧ p.state = .body
  /-- There is no answer exactly if the body is within the limit and there can be no room for
  it. -/
  none_iff (l : Bytes) : (ofLimits limits).feedSlice? (head ++ l) = none ↔
    n ≤ limits.maxBody ∧ maxPiece < n

section

variable (hmax : limits.maxBody < wordMax) (h : m.HeadFits limits)
include hmax h

theorem feedSlice?_head_eq_none_iff (l : Bytes) :
    (ofLimits limits).feedSlice? (m.head ++ l) = none ↔
      m.writtenLength ≤ limits.maxBody ∧ maxPiece < m.writtenLength :=
  feedSlice?_eq_none_iff.trans (Message.overflows_iff_writtenLength hmax h)

theorem feedSlice?_head (hroom : limits.maxBody < m.writtenLength ∨ m.writtenLength ≤ maxPiece)
    (l : Bytes) :
    (ofLimits limits).feedSlice? (m.head ++ l) =
      some ((ofLimits limits).feedSlice (m.head ++ l)) := by
  refine feedSlice?_of_not_overflows fun hover => ?_
  have := (Message.overflows_iff_writtenLength hmax h).1 hover
  omega

theorem feedSlice?_head_of_gt (hgt : limits.maxBody < m.writtenLength) (l : Bytes) :
    ∃ p, (ofLimits limits).feedSlice? (m.head ++ l) =
        some (.error (.bodyTooLarge m.declared), p) ∧
      p.body = #[] ∧ (ofLimits limits).reads (m.head ++ l) = m.head.length := by
  obtain ⟨p, hrun, hp⟩ := feedSlice_head_refused h ((Message.maxBody_lt_declared_iff hmax).2 hgt) l
  exact ⟨p, by rw [feedSlice?_head hmax h (.inl hgt), hrun], hp⟩

theorem feedSlice?_head_of_le (hle : m.writtenLength ≤ limits.maxBody)
    (hroom : m.writtenLength ≤ maxPiece) (hl : m.writtenLength ≤ l.length) :
    ∃ p, (ofLimits limits).feedSlice? (m.head ++ l) =
        some (.ok (.complete, m.head.length + m.writtenLength), p) ∧
      p.request = { m.headRequest with body := l.take m.writtenLength } := by
  have hrun := feedSlice_head_of_le (l := l) h
  rw [Message.declared_of_le hmax hle] at hrun
  obtain ⟨p, hrun, hreq⟩ := hrun hle hl
  exact ⟨p, by rw [feedSlice?_head hmax h (.inr hroom), hrun], hreq⟩

theorem feedSlice?_head_of_lt (hle : m.writtenLength ≤ limits.maxBody)
    (hroom : m.writtenLength ≤ maxPiece) (hl : l.length < m.writtenLength) :
    ∃ p, (ofLimits limits).feedSlice? (m.head ++ l) =
        some (.ok (.pending, m.head.length + l.length), p) ∧ p.state = .body := by
  have hrun := feedSlice_head_of_lt (l := l) h
  rw [Message.declared_of_le hmax hle, List.length_append] at hrun
  obtain ⟨p, hrun, hs⟩ := hrun hle hl
  exact ⟨p, by rw [feedSlice?_head hmax h (.inr hroom), hrun], hs⟩

theorem heeds_writtenLength : Heeds limits m.head m.headRequest m.writtenLength where
  tooLarge_iff l k := by
    rcases fate_cases limits m.writtenLength l.length with
      hgt | ⟨hle, hover⟩ | ⟨hle, hroom, hl⟩ | ⟨hle, hroom, hl⟩
    · obtain ⟨p, hrun, -⟩ := feedSlice?_head_of_gt hmax h hgt l
      rw [hrun]
      simp [hgt, Message.declared, eq_comm]
    · simp [(feedSlice?_head_eq_none_iff hmax h l).2 ⟨hle, hover⟩, Nat.not_lt.2 hle]
    · obtain ⟨p, hrun, -⟩ := feedSlice?_head_of_lt hmax h hle hroom hl
      simp [hrun, Nat.not_lt.2 hle]
    · obtain ⟨p, hrun, -⟩ := feedSlice?_head_of_le hmax h hle hroom hl
      simp [hrun, Nat.not_lt.2 hle]
  refused l hgt := by
    obtain ⟨p, hrun, hbody, hreads⟩ := feedSlice?_head_of_gt hmax h hgt l
    exact ⟨hreads, _, hrun, hbody⟩
  taken _ := feedSlice?_head_of_le hmax h
  pending _ := feedSlice?_head_of_lt hmax h
  none_iff := feedSlice?_head_eq_none_iff hmax h

end

end ByteParser

/-! ## The parser that takes lines -/

namespace LineParser

open Reader

variable {σ : Type} [Source σ] {P : σ → Bytes → Prop} {Q : σ → Prop} {stop : Option IoKind}
  {limits : Limits} {m : Message} {r : Reader σ} {l : Bytes}

/-- What the parser makes of a head that declares `n` bytes and comes to the request `q`. -/
structure Heeds (P : σ → Bytes → Prop) (limits : Limits) (head : Bytes) (q : Request) (n : Nat) :
    Prop where
  /-- The body is refused exactly if it is larger than the limit. -/
  tooLarge_iff {r : Reader σ} {l : Bytes} (k : Nat) : r.Holds P (head ++ l) →
    ((∃ r', (LineParser.mk limits).parse? r = some (.error (.bodyTooLarge k), r')) ↔
      limits.maxBody < n ∧ k = min n wordMax)
  /-- It is refused behind the head, and all of it is left. -/
  refused {r : Reader σ} {l : Bytes} : r.Holds P (head ++ l) → limits.maxBody < n →
    ∃ x, (LineParser.mk limits).parse? r = some x ∧ x.2.Holds P l
  /-- A body within the limit is taken, and what follows it is left. -/
  taken {r : Reader σ} {l : Bytes} : r.Holds P (head ++ l) → n ≤ limits.maxBody → n ≤ maxPiece →
    n ≤ l.length → ∃ r',
      (LineParser.mk limits).parse? r = some (.ok { q with body := l.take n }, r') ∧
        r'.Holds P (l.drop n)
  /-- A body that is not all there has the wrong length. -/
  cut {r : Reader σ} {l : Bytes} : r.Holds P (head ++ l) → n ≤ limits.maxBody → n ≤ maxPiece →
    l.length < n → ∃ r', (LineParser.mk limits).parse? r = some (.error .bodyLength, r')
  /-- There is no answer exactly if the body is within the limit and there can be no room for
  it. -/
  none_iff {r : Reader σ} {l : Bytes} : r.Holds P (head ++ l) →
    ((LineParser.mk limits).parse? r = none ↔ n ≤ limits.maxBody ∧ maxPiece < n)

section

variable (hP : Source.IsSupply P Q stop) (hmax : limits.maxBody < wordMax) (h : m.HeadFits limits)
  (hr : r.Holds P (m.head ++ l))
include hP hmax h hr

theorem parse?_head_eq_none_iff : (LineParser.mk limits).parse? r = none ↔
    m.writtenLength ≤ limits.maxBody ∧ maxPiece < m.writtenLength :=
  (parse?_eq_none_iff hP hr).trans (Message.overflows_iff_writtenLength hmax h)

/-- With room for the body, what follows the head is up to `body`. -/
theorem parse?_head (hroom : limits.maxBody < m.writtenLength ∨ m.writtenLength ≤ maxPiece) :
    ∃ r', (LineParser.mk limits).parse? r =
      some ((LineParser.mk limits).body r' m.headRequest) ∧ r'.Holds P l := by
  obtain ⟨r', hhead, hr'⟩ := head_of_headFits hP h hr
  have hover : ¬Overflows limits (m.head ++ l) := fun hover => by
    have := (Message.overflows_iff_writtenLength hmax h).1 hover
    omega
  exact ⟨r', by rw [parse?_of_not_overflows hP hr hover, parse, hhead], hr'⟩

theorem parse?_head_of_gt (hgt : limits.maxBody < m.writtenLength) :
    ∃ r', (LineParser.mk limits).parse? r = some (.error (.bodyTooLarge m.declared), r') ∧
      r'.Holds P l := by
  obtain ⟨r', hparse, hr'⟩ := parse?_head hP hmax h hr (.inl hgt)
  refine ⟨r', ?_, hr'⟩
  rw [hparse, body, ByteParser.contentLength_headRequest h,
    if_pos ((Message.maxBody_lt_declared_iff hmax).2 hgt)]

theorem parse?_head_of_le (hle : m.writtenLength ≤ limits.maxBody)
    (hroom : m.writtenLength ≤ maxPiece) (hl : m.writtenLength ≤ l.length) :
    ∃ r', (LineParser.mk limits).parse? r =
        some (.ok { m.headRequest with body := l.take m.writtenLength }, r') ∧
      r'.Holds P (l.drop m.writtenLength) := by
  have hc := ByteParser.contentLength_headRequest h
  rw [Message.declared_of_le hmax hle] at hc
  obtain ⟨r', hparse, hr'⟩ := parse?_head hP hmax h hr (.inr hroom)
  rw [hparse, body, hc, if_neg (Nat.not_lt.2 hle)]
  by_cases h0 : m.writtenLength = 0
  · refine ⟨r', ?_, by rwa [h0]⟩
    rw [if_pos h0, h0, List.take_zero, ← m.body_headRequest]
  · obtain ⟨r'', hread, hr''⟩ := r'.readExact_of_le hP hr' hl
    refine ⟨r'', ?_, hr''⟩
    rw [if_neg h0, hread]
    simp only [hc]

theorem parse?_head_of_lt (hle : m.writtenLength ≤ limits.maxBody)
    (hroom : m.writtenLength ≤ maxPiece) (hl : l.length < m.writtenLength) :
    ∃ r', (LineParser.mk limits).parse? r = some (.error .bodyLength, r') := by
  obtain ⟨r', hparse, hr'⟩ := parse?_head hP hmax h hr (.inr hroom)
  obtain ⟨e, r'', hread⟩ := r'.readExact_of_lt hP hr' hl
  rw [hparse, body, ByteParser.contentLength_headRequest h, Message.declared_of_le hmax hle,
    if_neg (Nat.not_lt.2 hle), if_neg (Nat.ne_of_gt (Nat.zero_lt_of_lt hl)), hread]
  exact ⟨r'', rfl⟩

end

theorem heeds_writtenLength (hP : Source.IsSupply P Q stop) (hmax : limits.maxBody < wordMax)
    (h : m.HeadFits limits) : Heeds P limits m.head m.headRequest m.writtenLength where
  tooLarge_iff {_ l} k hr := by
    rcases fate_cases limits m.writtenLength l.length with
      hgt | ⟨hle, hover⟩ | ⟨hle, hroom, hl⟩ | ⟨hle, hroom, hl⟩
    · obtain ⟨r', hparse, -⟩ := parse?_head_of_gt hP hmax h hr hgt
      rw [hparse]
      simp [hgt, Message.declared, eq_comm]
    · simp [(parse?_head_eq_none_iff hP hmax h hr).2 ⟨hle, hover⟩, Nat.not_lt.2 hle]
    · obtain ⟨r', hparse⟩ := parse?_head_of_lt hP hmax h hr hle hroom hl
      simp [hparse, Nat.not_lt.2 hle]
    · obtain ⟨r', hparse, -⟩ := parse?_head_of_le hP hmax h hr hle hroom hl
      simp [hparse, Nat.not_lt.2 hle]
  refused hr hgt := by
    obtain ⟨r', hparse, hr'⟩ := parse?_head_of_gt hP hmax h hr hgt
    exact ⟨_, hparse, hr'⟩
  taken := parse?_head_of_le hP hmax h
  cut := parse?_head_of_lt hP hmax h
  none_iff := parse?_head_eq_none_iff hP hmax h

end LineParser

/-! ## Both parsers -/

namespace Message

/-- Both parsers refuse a body exactly if the number that the last length line writes down is
beyond the limit, and then with the head alone used up; otherwise the body that they take has as
many bytes as that number says, or there can be no room for so many and both panic. Length lines
before the last one make no difference, whatever they say : the request is that of the head
without them. -/
theorem heeds_lastLength {limits : Limits} {m : Message} {v : Bytes}
    (hmax : limits.maxBody < wordMax) (h : m.HeadFits limits)
    (hv : lastValue? HeaderLine.isLength m.headers = some v) :
    ByteParser.Heeds limits m.head m.withLastLength.headRequest (Decimal.value v) ∧
      ∀ (σ : Type) [Source σ] (P : σ → Bytes → Prop) (Q : σ → Prop) (stop : Option IoKind),
        Source.IsSupply P Q stop →
          LineParser.Heeds P limits m.head m.withLastLength.headRequest (Decimal.value v) := by
  rw [headRequest_withLastLength h.headers_valid, ← writtenLength_eq hv]
  exact ⟨ByteParser.heeds_writtenLength hmax h,
    fun σ _ P Q stop hP => LineParser.heeds_writtenLength hP hmax h⟩

/-- A head with a length line of 30 digits before the one that counts. -/
def hugeFirst : Message where
  method := .post
  path := [slash]
  headers := [⟨utf8 "Content-Length", utf8 "100000000000000000000000000000"⟩,
    ⟨utf8 "Host", utf8 "a"⟩, ⟨utf8 "content-length", utf8 "0002"⟩]
  body := utf8 "hi"

theorem headFits_hugeFirst (n : Nat) : hugeFirst.HeadFits { maxBody := n } where
  method_named := by decide
  path_valid := ⟨by decide, List.all_eq_true.1 (by decide)⟩
  headers_valid := by
    intro h hh
    simp only [hugeFirst, List.mem_cons, List.not_mem_nil, or_false] at hh
    rcases hh with rfl | rfl | rfl
    · exact ⟨by decide, List.all_eq_true.1 (by decide), by decide,
        List.all_eq_true.1 (by decide), fun _ => List.all_eq_true.1 (by decide)⟩
    · exact ⟨by decide, List.all_eq_true.1 (by decide), by decide,
        List.all_eq_true.1 (by decide), nofun⟩
    · exact ⟨by decide, List.all_eq_true.1 (by decide), by decide,
        List.all_eq_true.1 (by decide), fun _ => List.all_eq_true.1 (by decide)⟩
  startLine_length := by
    change _ ≤ ({} : Limits).lineCap
    decide
  header_length := by
    change ∀ h ∈ _, _ ≤ ({} : Limits).lineCap
    decide

/-- It declares two bytes : with a limit of two they are taken by both parsers, and with a limit of
one they are refused. -/
theorem heeds_lastLength_hugeFirst :
    hugeFirst.HeadFits { maxBody := 2 } ∧ hugeFirst.HeadFits { maxBody := 1 } ∧
      lastValue? HeaderLine.isLength hugeFirst.headers = some (utf8 "0002") ∧
      (∃ p, (ByteParser.ofLimits { maxBody := 2 }).feedSlice? (hugeFirst.render ++ utf8 "GET") =
          some (.ok (.complete, hugeFirst.render.length), p) ∧ p.request.body = utf8 "hi") ∧
      ∃ r, (LineParser.mk { maxBody := 1 }).parse? (Reader.withCapacity 0
        (MemoryStream.ofInput hugeFirst.render)) = some (.error (.bodyTooLarge 2), r) := by
  have hlast : lastValue? HeaderLine.isLength hugeFirst.headers = some (utf8 "0002") := by decide
  have htwo := heeds_lastLength (by decide) (headFits_hugeFirst 2) hlast
  have hone := heeds_lastLength (by decide) (headFits_hugeFirst 1) hlast
  refine ⟨headFits_hugeFirst 2, headFits_hugeFirst 1, hlast, ?_, ?_⟩
  · obtain ⟨p, hrun, hreq⟩ :=
      htwo.1.taken (hugeFirst.body ++ utf8 "GET") (by decide) (by decide) (by decide)
    rw [← List.append_assoc] at hrun
    exact ⟨p, hrun, congrArg Request.body hreq⟩
  · have hmemory := hone.2 MemoryStream _ _ _ MemoryStream.isDelivery.isSupply
    exact (hmemory.tooLarge_iff 2 (Reader.holds_withCapacity 0
      (MemoryStream.delivers_ofInput hugeFirst.render))).2 (by decide)

/-- A length within the limit after which neither parser goes on to the body. -/
theorem not_heeded_vast :
    let raw := utf8 "POST / HTTP/1.1\r\nContent-Length: 9223372036854775808\r\n\r\n"
    let limits : Limits := { maxBody := 9223372036854775808 }
    raw = vast.head ∧ limits.maxBody < wordMax ∧ vast.HeadFits limits ∧
      lastValue? HeaderLine.isLength vast.headers = some (utf8 "9223372036854775808") ∧
      Decimal.value (utf8 "9223372036854775808") ≤ limits.maxBody ∧
      (ByteParser.ofLimits limits).feedSlice? raw = none ∧
      (LineParser.mk limits).parse? (Reader.withCapacity 4096 (MemoryStream.ofInput raw)) =
        none := by
  intro raw limits
  have hover : Overflows limits raw := overflows_vast
  exact ⟨rfl, by decide, headFits_vast, by decide, by decide,
    ByteParser.feedSlice?_eq_none_iff.2 hover,
    (LineParser.parse?_ofInput_eq_none_iff limits 4096 raw).2 hover⟩

end Message

end HttpServer
