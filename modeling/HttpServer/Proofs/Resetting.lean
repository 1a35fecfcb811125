import HttpServer.Proofs.Places
import Mathlib.Data.List.Sort

/-!
# Parsers that were reset

A parser that was reset starts a line anew, but it keeps the request and the body that it has
read. In the head they stay out of the way : what the bytes lead to depends neither on the one
nor on the other (`ByteParser.feed_holding`), up to the end of the head. There the two meet the
next request. A field that its lines do not name is left over, the length among them, and the
bytes of the next body are counted, and come to stand, behind those of the old one.

So a parser that was reset answers like a new one wherever no head ends. It gives the request
of a message that follows exactly if the message names whatever is left over and no byte of a
body is (`ByteParser.actsAsNew_reset`).
-/

namespace HttpServer

/-- Fields with the same values are the same. -/
theorem Fields.eq_of_get? {f g : Fields} (h : ∀ k, f.get? k = g.get? k) : f = g := by
  have hmem {f g : Fields} (h : ∀ k, f.get? k = g.get? k) {e : Bytes × Bytes}
      (he : e ∈ f.entries) : e ∈ g.entries := by
    have hget : g.get? e.1 = some e.2 := (h e.1).symm.trans (get?_of_mem he)
    obtain ⟨e', hfind, he'⟩ := Option.map_eq_some_iff.1 hget
    have hkey : e'.1 = e.1 := by simpa using List.find?_some hfind
    exact Prod.ext hkey he' ▸ List.mem_of_find?_eq_some hfind
  have hirrefl : Std.Irrefl fun a b : Bytes × Bytes => a.1 < b.1 := ⟨fun a => List.lt_irrefl a.1⟩
  have hantisymm : Std.Antisymm fun a b : Bytes × Bytes => a.1 < b.1 :=
    ⟨fun a b hab hba => absurd hba (List.lt_asymm hab)⟩
  have heq := f.sorted.eq_of_mem_iff g.sorted fun e => ⟨hmem h, hmem fun k => (h k).symm⟩
  cases f
  cases g
  simpa using heq

/-! ## Requests that are read onto others -/

/-- What is made of a missing value shows exactly if the value is missing. -/
theorem apply_lastValue?_eq_iff {α : Type} (p : HeaderLine → Bool) (hs : List HeaderLine)
    (f g : Option Bytes → α) (hfg : ∀ v, f (some v) = g (some v)) :
    f (lastValue? p hs) = g (lastValue? p hs) ↔ f none = g none ∨ ∃ h ∈ hs, p h = true := by
  cases hlast : lastValue? p hs with
  | none =>
    have hno : ¬∃ h ∈ hs, p h = true := by simpa [lastValue?] using hlast
    simp [hno]
  | some v =>
    obtain ⟨h, hh, hp, -⟩ := lastValue?_eq_some hlast
    exact ⟨fun _ => .inr ⟨h, hh, hp⟩, fun _ => hfg v⟩

attribute [ext] Request

/-- Requests that differ in their bodies at most. -/
theorem Request.eq_of_body_eq {q r : Request} {b c : Bytes}
    (h : { q with body := b } = { r with body := c }) (hb : q.body = r.body) : q = r := by
  cases q
  cases r
  simp_all

namespace Message

variable {m : Message} {limits : Limits} {r : Request}

/-- The header lines of the message name all that is left of a request, and nothing is left of
its body. -/
structure Covers (m : Message) (r : Request) : Prop where
  host : r.host = [] ∨ ∃ h ∈ m.headers, h.known? = some .host
  contentType : r.contentType = [] ∨ ∃ h ∈ m.headers, h.known? = some .contentType
  contentLength : r.contentLength = 0 ∨ ∃ h ∈ m.headers, h.known? = some .contentLength
  headers : ∀ k, r.headers.get? k = none ∨ ∃ h ∈ m.headers, h.known? = none ∧ h.key = k
  body : r.body = []

/-- A head is read as it is onto any request that it covers, and onto no other. -/
theorem readOnto_eq_headRequest_iff (hv : ∀ h ∈ m.headers, h.Valid) :
    m.readOnto r = m.headRequest ↔ m.Covers r := by
  have hr : Overlays m.headers _ (m.readOnto r) := overlays_readHeaders hv _
  have h0 : Overlays m.headers _ m.headRequest := overlays_readHeaders hv _
  have hhost : (m.readOnto r).host = m.headRequest.host ↔
      r.host = [] ∨ ∃ h ∈ m.headers, h.known? = some .host := by
    rw [hr.host, h0.host]
    simpa [startRequest] using apply_lastValue?_eq_iff (fun h => h.known? = some .host) m.headers
      (·.getD r.host) (·.getD []) fun _ => rfl
  have htype : (m.readOnto r).contentType = m.headRequest.contentType ↔
      r.contentType = [] ∨ ∃ h ∈ m.headers, h.known? = some .contentType := by
    rw [hr.contentType, h0.contentType]
    simpa [startRequest] using
      apply_lastValue?_eq_iff (fun h => h.known? = some .contentType) m.headers
      (·.getD r.contentType) (·.getD []) fun _ => rfl
  have hlength : (m.readOnto r).contentLength = m.headRequest.contentLength ↔
      r.contentLength = 0 ∨ ∃ h ∈ m.headers, h.known? = some .contentLength := by
    rw [hr.contentLength, h0.contentLength]
    simpa [startRequest] using
      apply_lastValue?_eq_iff (fun h => h.known? = some .contentLength) m.headers
      (fun v => (v.map fun v => min (Decimal.value v) wordMax).getD r.contentLength)
      (fun v => (v.map fun v => min (Decimal.value v) wordMax).getD 0) fun _ => rfl
  have hheaders (k : Bytes) : (m.readOnto r).headers.get? k = m.headRequest.headers.get? k ↔
      r.headers.get? k = none ∨ ∃ h ∈ m.headers, h.known? = none ∧ h.key = k := by
    rw [hr.headers, h0.headers]
    simpa [startRequest] using
      apply_lastValue?_eq_iff (fun h => h.known? = none ∧ h.key = k) m.headers
      (·.or (r.headers.get? k)) (·.or none) fun _ => rfl
  constructor
  · intro heq
    rw [heq] at hhost htype hlength hheaders hr
    exact ⟨hhost.1 rfl, htype.1 rfl, hlength.1 rfl, fun k => (hheaders k).1 rfl,
      hr.body.symm.trans h0.body⟩
  · intro h
    exact Request.ext (hr.method.trans h0.method.symm) (hr.path.trans h0.path.symm)
      (hhost.2 h.host) (htype.2 h.contentType) (hlength.2 h.contentLength)
      (Fields.eq_of_get? fun k => (hheaders k).2 (h.headers k))
      (hr.body.trans (h.body.trans h0.body.symm))

end Message

namespace ByteParser

variable {limits : Limits} {p p' : ByteParser} {b : UInt8} {l : Bytes}

/-! ## Another request and another body in store -/

/-- The parser with another request and another body in store. -/
def holding (p : ByteParser) (r : Request) (body : Array UInt8) : ByteParser :=
  { p with partialRequest := r, body }

/-- After a reset the parser is a new one that holds what was read before. -/
theorem reset_eq (p : ByteParser) :
    p.reset = (ofLimits p.limits).holding p.partialRequest p.body := rfl

/-- What the branches of a choice lead to, the choice leads to. -/
theorem ite_holding {c : Prop} [Decidable c] {r : Request} {body : Array UInt8}
    {x y x' y' : Except ParseError Progress × ByteParser}
    (hx : c → x' = (x.1, x.2.holding r body)) (hy : ¬c → y' = (y.1, y.2.holding r body)) :
    (if c then x' else y') = ((if c then x else y).1, (if c then x else y).2.holding r body) := by
  split_ifs with hc
  · exact hx hc
  · exact hy hc

theorem step_holding (hs : p.state.inHead = true) (hb : ¬(p.state = .endLine ∧ b = lf)) :
    ∃ f : Request → Request, ∀ r body,
      (p.holding r body).step b = ((p.step b).1, (p.step b).2.holding (f r) body) := by
  obtain ⟨limits, state, q, stored, token, key, n, e?⟩ := p
  cases state with
  | start | space1 | space2 | newLine | colon | space3 | headerNewLine =>
    exact ⟨id, fun r body => ite_holding (fun _ => rfl) fun _ => rfl⟩
  | version =>
    exact ⟨id, fun r body => ite_holding (fun _ => rfl) fun _ =>
      ite_holding (fun _ => rfl) fun _ => rfl⟩
  | headerKey =>
    exact ⟨id, fun r body => ite_holding (fun _ => rfl) fun _ => ite_holding (fun _ => rfl) fun _ =>
      ite_holding (fun _ => rfl) fun _ => rfl⟩
  | method =>
    by_cases hsp : b = sp
    · exact ⟨fun r => { r with method := .ofToken token.toList }, fun r body =>
        ite_holding (fun _ => ite_holding (fun _ => rfl) fun _ => rfl) fun h => absurd hsp h⟩
    · exact ⟨id, fun r body => ite_holding (fun h => absurd h hsp) fun _ =>
        ite_holding (fun _ => rfl) fun _ => rfl⟩
  | path =>
    by_cases hsp : b = sp
    · exact ⟨fun r => { r with path := Path.clean token.toList }, fun r body =>
        ite_holding (fun _ => rfl) fun h => absurd hsp h⟩
    · exact ⟨id, fun r body => ite_holding (fun h => absurd h hsp) fun _ =>
        ite_holding (fun _ => rfl) fun _ => rfl⟩
  | headerValue =>
    by_cases hcr : b = cr
    · refine ⟨fun r => r.withHeader key token.toList, fun r body =>
        ite_holding (fun _ => ?_) fun h => absurd hcr h⟩
      have hnone := r.setHeader?_eq_none_iff q key token.toList
      dsimp only [holding, Request.withHeader]
      cases hr : r.setHeader? key token.toList <;> cases hq : q.setHeader? key token.toList
      · rfl
      · simp [hr, hq] at hnone
      · simp [hr, hq] at hnone
      · rfl
    · exact ⟨id, fun r body => ite_holding (fun h => absurd h hcr) fun _ =>
        ite_holding (fun _ => rfl) fun _ => rfl⟩
  | endLine => exact ⟨id, fun r body => ite_holding (fun h => absurd ⟨rfl, h⟩ hb) fun _ => rfl⟩
  | body | done | error => cases hs

/-- What a byte of the head leads to does not depend on the request and the body in store, unless
it ends the head. What it does to a request does not depend on the body. -/
theorem feed_holding (hs : p.state.inHead = true) (hb : ¬(p.state = .endLine ∧ b = lf)) :
    ∃ f : Request → Request, ∀ r body,
      (p.holding r body).feed b = ((p.feed b).1, (p.feed b).2.holding (f r) body) := by
  have hs' (r : Request) (body : Array UInt8) : (p.holding r body).state.inHead = true := hs
  by_cases hfull : p.limits.lineCap < p.lineLength + 1
  · refine ⟨id, fun r body => ?_⟩
    have hfull' : (p.holding r body).limits.lineCap < (p.holding r body).lineLength + 1 := hfull
    rw [feed, feed, if_pos hs, if_pos (hs' r body)]
    simp only [hfull, hfull', if_true]
    rfl
  · obtain ⟨f, hf⟩ := step_holding (p := { p with lineLength := p.lineLength + 1 }) hs hb
    refine ⟨f, fun r body => ?_⟩
    have hfull' : ¬(p.holding r body).limits.lineCap < (p.holding r body).lineLength + 1 := hfull
    rw [feed, feed, if_pos hs, if_pos (hs' r body)]
    simp only [hfull, hfull', if_false]
    exact hf r body

theorem inHead_step_iff (h : p.step b = (.ok .pending, p')) :
    p'.state.inHead = true ↔ p.state.inHead = true ∧ ¬(p.state = .endLine ∧ b = lf) := by
  obtain ⟨limits, state, q, stored, token, key, n, e?⟩ := p
  unfold step at h
  dsimp only at h
  repeat' split at h
  all_goals first
    | contradiction
    | cases h
  all_goals simp_all [ParseState.inHead]

/-- A byte that leaves the request pending leads to a place in the head exactly if it comes in
the head and does not end it. -/
theorem inHead_feed_iff (h : p.feed b = (.ok .pending, p')) :
    p'.state.inHead = true ↔ p.state.inHead = true ∧ ¬(p.state = .endLine ∧ b = lf) := by
  unfold feed at h
  dsimp only at h
  split at h
  · split at h
    · cases h
    · exact inHead_step_iff (p := { p with lineLength := p.lineLength + 1 }) h
  · exact inHead_step_iff h

/-- What a run in the head leads to does not depend on the request and the body in store. What it
does to a request does not depend on the body. -/
theorem Feeds.holding (h : Feeds p l p') (hs : p'.state.inHead = true) :
    p.state.inHead = true ∧
      ∃ f : Request → Request, ∀ r body, Feeds (p.holding r body) l (p'.holding (f r) body) := by
  induction h with
  | nil p => exact ⟨hs, id, fun r body => .nil _⟩
  | cons hb _ ih =>
    obtain ⟨hs₁, f, hf⟩ := ih hs
    obtain ⟨hs₀, hend⟩ := (inHead_feed_iff hb).1 hs₁
    obtain ⟨g, hg⟩ := feed_holding hs₀ hend
    refine ⟨hs₀, f ∘ g, fun r body => .cons ?_ (hf (g r) body)⟩
    rw [hg, hb]

/-! ## Heads -/

/-- The last byte of a head ends it, whatever the request and the body in store. -/
theorem feedList_head_holding {m : Message} (h : m.HeadFits limits) (r : Request)
    (body : Array UInt8) (l : Bytes) :
    ((ofLimits limits).holding r body).feedList 0 (m.head ++ l) =
      match (afterHead limits (m.readOnto r) .endLine body).headEnd with
      | (.ok .pending, p) => p.feedList m.head.length l
      | (.ok .complete, p) => (.ok (.complete, m.head.length), p)
      | (.error e, p) => (.error e, p) := by
  have hrun : Feeds ((ofLimits limits).holding r body) (m.headLines ++ [cr])
      ((inLine limits (m.readOnto r) .endLine [] [] 1).holding (m.readOnto r) body) := by
    have hinto : Feeds ((ofLimits limits).holding r #[]) (m.headLines ++ [cr])
        ((inLine limits (m.readOnto r) .endLine [] [] 1).holding (m.readOnto r) #[]) :=
      feeds_head_into h r
    obtain ⟨-, f, hf⟩ := hinto.holding rfl
    have heq := hinto.unique (hf r #[])
    have hreq : f r = m.readOnto r := congrArg partialRequest heq.symm
    have := hf r body
    rwa [hreq] at this
  have hsplit : m.head ++ l = (m.headLines ++ [cr]) ++ lf :: l := by
    simp [Message.head_eq, crlf]
  have hlen : m.head.length = (m.headLines ++ [cr]).length + 1 := by
    simp [Message.head_eq, crlf]
  have hlast :
      ((inLine limits (m.readOnto r) .endLine [] [] 1).holding (m.readOnto r) body).feed lf =
        (afterHead limits (m.readOnto r) .endLine body).headEnd :=
    feed_of_room rfl (Nat.lt_of_lt_of_le Nat.one_lt_two limits.two_le_lineCap) lf
  have hfeed := feedList_of_feeds hrun 0 (lf :: l)
  rw [feedList, hlast, Nat.zero_add] at hfeed
  rw [hsplit, hlen]
  exact hfeed

/-- A body that becomes complete takes bytes of the input behind those in store. -/
theorem request_of_feedList_body (hs : p.state = .body) {n k : Nat}
    (h : p.feedList n l = (.ok (.complete, k), p')) :
    ∃ x : Bytes, k = n + x.length ∧
      p'.request = { p.partialRequest with body := p.body.toList ++ x } := by
  induction l generalizing p n with
  | nil => cases h
  | cons b l ih =>
    rw [feedList, feed_body hs] at h
    split_ifs at h
    · cases h
      exact ⟨[b], rfl, by simp [request]⟩
    · obtain ⟨x, hk, hreq⟩ := ih (p := { p with body := p.body.push b }) hs h
      exact ⟨b :: x, by rw [hk, List.length_cons]; omega, by simpa using hreq⟩

/-- A request that becomes complete after a head has the fields that the head is read onto, and
bytes of the input behind those of the body in store. -/
theorem request_of_feedList_head {m : Message} (hm : m.HeadFits limits) {r : Request}
    {body : Array UInt8} {k : Nat}
    (h : ((ofLimits limits).holding r body).feedList 0 (m.head ++ l) =
      (.ok (.complete, k), p')) :
    ∃ x : Bytes, k = m.head.length + x.length ∧
      p'.request = { m.readOnto r with body := body.toList ++ x } := by
  rw [feedList_head_holding hm, headEnd] at h
  split_ifs at h
  · cases h
  · cases h
    exact ⟨[], rfl, by simp [request, afterHead, inLine]⟩
  · exact request_of_feedList_body rfl h

/-- In the head the parser is at its end only after the lines of a head. -/
theorem Place.endLine (h : Place limits l p) (hs : p.state = .endLine) :
    ∃ m : Message, m.HeadFits limits ∧ l = m.headLines ++ [cr] := by
  cases h with
  | startLine h =>
    have hstart := h.inStartLine
    rw [hs] at hstart
    cases hstart
  | header hm h =>
    cases h with
    | empty => exact ⟨_, hm, rfl⟩
    | _ => cases hs
  | body => cases hs

/-- As long as no head ends, the answer does not depend on the request and the body in store. -/
theorem feedList_holding {l' : Bytes} (h : Place limits l p) (hs : p.state.inHead = true)
    (hno : ∀ m : Message, m.HeadFits limits → ¬m.head <+: l ++ l') (n : Nat) (r : Request)
    (body : Array UInt8) : ((p.holding r body).feedList n l').1 = (p.feedList n l').1 := by
  induction l' generalizing l p n r with
  | nil => rfl
  | cons b l' ih =>
    have hend : ¬(p.state = .endLine ∧ b = lf) := by
      rintro ⟨hend, rfl⟩
      obtain ⟨m, hm, rfl⟩ := h.endLine hend
      exact hno m hm ⟨l', by simp [Message.head_eq, crlf]⟩
    obtain ⟨f, hf⟩ := feed_holding hs hend
    rw [feedList, feedList, hf]
    rcases hb : p.feed b with ⟨e | _ | _, q⟩
    · rfl
    · exact ih (h.feed hb) ((inHead_feed_iff hb).2 ⟨hs, hend⟩) (by simpa using hno) _ _
    · rfl

/-! ## What bytes leave as it is -/

theorem body_step (p : ByteParser) (b : UInt8) :
    (p.step b).2.partialRequest.body = p.partialRequest.body := by
  unfold step
  dsimp only
  repeat' split
  case h_2 hset => exact Request.body_of_setHeader? hset
  all_goals rfl

theorem body_feed (p : ByteParser) (b : UInt8) :
    (p.feed b).2.partialRequest.body = p.partialRequest.body := by
  unfold feed
  dsimp only
  split
  · split
    · rfl
    · exact body_step _ b
  · exact body_step p b

theorem body_feedList (p : ByteParser) (n : Nat) (l : Bytes) :
    (p.feedList n l).2.partialRequest.body = p.partialRequest.body := by
  induction l generalizing p n with
  | nil => rfl
  | cons b l ih =>
    have hb := body_feed p b
    rw [feedList]
    generalize p.feed b = x at hb ⊢
    obtain ⟨_ | _ | _, q⟩ := x
    · exact hb
    · exact (ih q (n + 1)).trans hb
    · exact hb

/-- The body is stored beside the rest of the request. -/
theorem body_use (h : p.partialRequest.body = []) (u : Use) :
    (p.use u).partialRequest.body = [] := by
  cases u with
  | feed b => exact (body_feed p b).trans h
  | feedSlice l =>
    unfold use feedSlice
    dsimp only
    split
    · exact h
    · exact (body_feedList p 0 l).trans h
  | takeRequest => rfl

theorem body_useAll (h : p.partialRequest.body = []) (us : List Use) :
    (p.useAll us).partialRequest.body = [] := by
  induction us generalizing p with
  | nil => exact h
  | cons u us ih => exact ih (body_use h u)

theorem error?_step {x : Progress} (h : p.step b = (.ok x, p')) :
    p'.error? = p.error? ∧ p'.state ≠ .error := by
  unfold step at h
  dsimp only at h
  repeat' split at h
  all_goals first
    | contradiction
    | cases h
  all_goals exact ⟨rfl, by simp⟩

theorem error?_feed {x : Progress} (h : p.feed b = (.ok x, p')) :
    p'.error? = p.error? ∧ p'.state ≠ .error := by
  unfold feed at h
  dsimp only at h
  split at h
  · split at h
    · cases h
    · exact error?_step (p := { p with lineLength := p.lineLength + 1 }) h
  · exact error?_step h

/-- The error that a parser keeps is the one that it has answered. -/
theorem error?_feedList (hs : p.state ≠ .error) (he : p.error? = none) (n : Nat) :
    (p.feedList n l).2.error? = match (p.feedList n l).1 with
      | .ok _ => none
      | .error e => some e := by
  induction l generalizing p n with
  | nil => exact he
  | cons b l ih =>
    rw [feedList]
    rcases hb : p.feed b with ⟨e | _ | _, q⟩
    · exact (stopped_of_feed hb hs).error
    · obtain ⟨he', hs'⟩ := error?_feed hb
      exact ih hs' (he'.trans he) (n + 1)
    · exact (error?_feed hb).1.trans he

/-! ## Parsers that act as new -/

/-- After a reset the parser deals with these bytes as a new one does : it answers the same, and
has the same error and the same request. -/
structure ActsAsNew (p : ByteParser) (l : Bytes) : Prop where
  answer : (p.reset.feedSlice l).1 = ((ofLimits p.limits).feedSlice l).1
  error : (p.reset.feedSlice l).2.error? = ((ofLimits p.limits).feedSlice l).2.error?
  request : (p.reset.feedSlice l).2.request = ((ofLimits p.limits).feedSlice l).2.request

variable {m : Message}

theorem feedSlice_reset (p : ByteParser) (l : Bytes) :
    p.reset.feedSlice l =
      ((ofLimits p.limits).holding p.partialRequest p.body).feedList 0 l :=
  feedSlice_of_ne_done (by simp [reset]) l

/-- The kept error follows from the answer. -/
theorem error?_reset_of_answer
    (h : (p.reset.feedSlice l).1 = ((ofLimits p.limits).feedSlice l).1) :
    (p.reset.feedSlice l).2.error? = ((ofLimits p.limits).feedSlice l).2.error? := by
  rw [feedSlice_reset, feedSlice_ofLimits] at h ⊢
  rw [error?_feedList (by simp [holding, ofLimits]) rfl,
    error?_feedList (by simp [ofLimits]) rfl, h]

/-- A head that is read as it is onto what is left over, where no byte of a body is, leads to the
same as for a new parser. -/
theorem feedSlice_reset_head (hm : m.HeadFits p.limits)
    (hread : m.readOnto p.partialRequest = m.headRequest) (hbody : p.body = #[]) (l : Bytes) :
    p.reset.feedSlice (m.head ++ l) = (ofLimits p.limits).feedSlice (m.head ++ l) := by
  rw [feedSlice_reset, feedSlice_ofLimits, feedList_head_holding hm, hread, hbody]
  exact (feedList_head_holding hm {} #[] l).symm

/-- A message is taken by a parser that was reset as by a new one exactly if it covers what is
left over. -/
theorem actsAsNew_render_iff (hb : p.partialRequest.body = []) (hm : m.Fits p.limits)
    (tail : Bytes) : p.ActsAsNew (m.render ++ tail) ↔ m.Covers p.request := by
  have hcovers : m.Covers p.request ↔ m.Covers p.partialRequest ∧ p.body = #[] :=
    ⟨fun ⟨h1, h2, h3, h4, h5⟩ => ⟨⟨h1, h2, h3, h4, hb⟩, Array.toList_eq_nil_iff.1 h5⟩,
      fun ⟨⟨h1, h2, h3, h4, _⟩, h5⟩ => ⟨h1, h2, h3, h4, Array.toList_eq_nil_iff.2 h5⟩⟩
  rw [hcovers, ← Message.readOnto_eq_headRequest_iff hm.headers_valid]
  constructor
  · intro h
    obtain ⟨q, hnew, hreq⟩ := feedSlice_render hm tail
    obtain ⟨hanswer, -, hrequest⟩ := h
    rw [hnew, feedSlice_reset] at hanswer hrequest
    rw [Message.render, List.append_assoc] at hanswer hrequest
    generalize hx : feedList _ 0 _ = x at hanswer hrequest
    obtain ⟨_, p'⟩ := x
    cases hanswer
    obtain ⟨x, hlen, hreq'⟩ := request_of_feedList_head hm.toHeadFits hx
    rw [List.length_append, Nat.add_left_cancel_iff] at hlen
    have heq : { m.readOnto p.partialRequest with body := p.body.toList ++ x } = m.request :=
      hreq'.symm.trans (hrequest.trans hreq)
    have hbody : p.body.toList ++ x = m.body := congrArg Request.body heq
    refine ⟨?_, ?_⟩
    · have hbodies : (m.readOnto p.partialRequest).body = m.headRequest.body :=
        (Message.body_readHeaders _ m.headers).trans (hb.trans m.body_headRequest.symm)
      exact Request.eq_of_body_eq heq hbodies
    · have := congrArg List.length hbody
      rw [List.length_append, hlen] at this
      exact Array.toList_eq_nil_iff.1 (List.eq_nil_of_length_eq_zero (by omega))
  · rintro ⟨hread, hbody⟩
    have heq := feedSlice_reset_head hm.toHeadFits hread hbody (m.body ++ tail)
    rw [← List.append_assoc] at heq
    exact ⟨congrArg (·.1) heq, congrArg (·.2.error?) heq, congrArg (·.2.request) heq⟩

theorem reset_eq_ofLimits (hb : p.partialRequest.body = []) (h : p.request = {}) :
    p.reset = ofLimits p.limits := by
  have hstored : p.body = #[] := Array.toList_eq_nil_iff.1 (congrArg Request.body h)
  have hpartial : p.partialRequest = {} := Request.eq_of_body_eq h hb
  rw [reset_eq, hstored, hpartial]
  rfl

/-- However a parser was used, after a reset it deals with all bytes as a new one does if and only
if it holds nothing of a request. It deals so with a message of the grammar, whatever follows the
message, if and only if the message covers what it holds. And it always answers so as long as no
head of the grammar ends. -/
theorem actsAsNew_reset (limits : Limits) (us : List Use) :
    let p := (ofLimits limits).useAll us
    ((∀ l, p.ActsAsNew l) ↔ p.request = {}) ∧
      (∀ m : Message, m.Fits limits → ∀ tail, p.ActsAsNew (m.render ++ tail) ↔ m.Covers p.request) ∧
      ∀ l, (∀ m : Message, m.HeadFits limits → ¬m.head <+: l) →
        (p.reset.feedSlice l).1 = ((ofLimits limits).feedSlice l).1 ∧
        (p.reset.feedSlice l).2.error? = ((ofLimits limits).feedSlice l).2.error? := by
  intro p
  have hlimits : p.limits = limits := ((Situation.start limits).useAll us).limits_eq
  have hbody : p.partialRequest.body = [] := body_useAll rfl us
  clear_value p
  subst hlimits
  refine ⟨⟨fun h => (h []).request, fun h => ?_⟩, fun m hm => actsAsNew_render_iff hbody hm, ?_⟩
  · have hreset : p.reset = ofLimits p.limits := reset_eq_ofLimits hbody h
    exact fun l => ⟨by rw [hreset], by rw [hreset], by rw [hreset]⟩
  · intro l hno
    have hanswer : (p.reset.feedSlice l).1 = ((ofLimits p.limits).feedSlice l).1 := by
      rw [feedSlice_reset, feedSlice_ofLimits]
      exact feedList_holding (place_start p.limits) rfl hno 0 _ _
    exact ⟨hanswer, error?_reset_of_answer hanswer⟩

/-- A parser that was given up inside a head, after the host. -/
def interrupted : List Use := [.feedSlice (utf8 "POST /a HTTP/1.1\r\nHost: a\r\nX")]

/-- A message that names its host. -/
def named : Message :=
  { method := .get, path := [slash], headers := [⟨utf8 "host", utf8 "b"⟩], body := [] }

/-- A message that does not. -/
def anonymous : Message := { named with headers := [] }

/-- Only the first one of the two messages is taken as by a new parser. The start of either is. -/
theorem actsAsNew_reset_interrupted :
    let p := (ofLimits {}).useAll interrupted
    (named.Fits {} ∧ anonymous.Fits {}) ∧ p.ActsAsNew (named.render ++ utf8 "GET") ∧
      ¬p.ActsAsNew (anonymous.render ++ utf8 "GET") ∧
      (p.reset.feedSlice (utf8 "GET / HT")).1 = .ok (.pending, 8) := by
  intro p
  have hnamed : named.Fits {} :=
    ⟨⟨by decide, ⟨rfl, List.all_eq_true.1 (by decide)⟩, by
      simp only [named, List.forall_mem_singleton]
      exact ⟨by decide, List.all_eq_true.1 (by decide), by decide, List.all_eq_true.1 (by decide),
        fun h => absurd h (by decide)⟩, by decide, by decide⟩, rfl, by decide⟩
  have hanonymous : anonymous.Fits {} :=
    ⟨⟨by decide, ⟨rfl, List.all_eq_true.1 (by decide)⟩, by simp [anonymous], by decide, by decide⟩,
      rfl, by decide⟩
  have hheld : p.request = { ({} : Request) with
      method := .post, path := utf8 "/a", host := utf8 "a" } := by decide +kernel
  obtain ⟨-, hmessage, hstart⟩ := actsAsNew_reset {} interrupted
  refine ⟨⟨hnamed, hanonymous⟩, (hmessage named hnamed _).2 ?_, fun h => ?_, ?_⟩
  · change named.Covers p.request
    rw [hheld]
    exact ⟨.inr ⟨_, List.mem_singleton_self _, by decide⟩, .inl rfl, .inl rfl,
      fun k => .inl rfl, rfl⟩
  · have hhost := ((hmessage anonymous hanonymous _).1 h).host
    change p.request.host = [] ∨ _ at hhost
    rw [hheld] at hhost
    revert hhost
    decide
  · have hnew : ((ofLimits {}).feedSlice (utf8 "GET / HT")).1 = .ok (.pending, 8) := by
      decide +kernel
    exact (hstart _ fun m _ h =>
      absurd (m.hasHeadEnd_head.trans h.isInfix) (by decide)).1.trans hnew

/-- A parser whose request with a body is complete. -/
def spent : List Use :=
  [.feedSlice (utf8 "POST / HTTP/1.1\r\nContent-Length: 2\r\nX: 1\r\n\r\nhi")]

/-- A request without a body is never complete afterwards : the length is the old one, and so are
the bytes that it counts. -/
theorem not_actsAsNew_spent :
    let p := (ofLimits {}).useAll spent
    let l := utf8 "GET / HTTP/1.1\r\n\r\n"
    ¬p.ActsAsNew l ∧ (p.reset.feedSlice l).1 = .ok (.pending, 18) ∧
      ((ofLimits {}).feedSlice l).1 = .ok (.complete, 18) := by
  intro p l
  have hold : (p.reset.feedSlice l).1 = .ok (.pending, 18) := by decide +kernel
  have hnew : ((ofLimits {}).feedSlice l).1 = .ok (.complete, 18) := by decide +kernel
  refine ⟨fun h => ?_, hold, hnew⟩
  cases hold.symm.trans (h.answer.trans hnew)

end ByteParser

end HttpServer
