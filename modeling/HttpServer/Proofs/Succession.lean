import HttpServer.Proofs.Holding
import HttpServer.Proofs.Segmentation

/-!
# Requests one after the other

A connection may bring several requests, each of which starts where the one before it ends. One
reader is then asked for a request again and again, and it has read ahead when it hands one
out; or one parser is fed what is left of the bytes after each request, and has its request
taken in between.

Neither the bytes that were read ahead nor what the parser was used for before can be seen in the
requests : both ways take those that new parsers take from the bytes, each from where the one
before it stops, and both stop at the same place (`LineParser.parseEach_takeEach`).
-/

namespace HttpServer

/-- What comes of taking requests one after the other, up to the first that is rejected. -/
structure Series (α : Type) where
  /-- The requests that were taken. -/
  requests : List Request := []
  /-- Why the next one was rejected. -/
  error? : Option ParseError := none
  /-- What the next one would be taken from. -/
  left : α

/-- The series with a request before it. -/
def Series.cons {α : Type} (q : Request) (s : Series α) : Series α :=
  { s with requests := q :: s.requests }

variable {σ : Type} [Source σ] {limits : Limits} {raw : Bytes}

/-- Takes `k` requests from a reader. -/
def LineParser.parseEach (p : LineParser) (r : Reader σ) : Nat → Series (Reader σ)
  | 0 => { left := r }
  | k + 1 =>
    match p.parse r with
    | (.ok q, r') => (p.parseEach r' k).cons q
    | (.error e, r') => { error? := some e, left := r' }

namespace ByteParser

/-- Takes one request from bytes that are all there. The answer holds the bytes that follow it. -/
def take (p : ByteParser) (l : Bytes) : Except ParseError (Request × Bytes) × ByteParser :=
  match p.feedSlice l with
  | (.ok (.complete, n), p') => (.ok (p'.takeRequest.1, l.drop n), p'.takeRequest.2)
  | (.ok (.pending, _), p') => (.error p'.endError, p')
  | (.error e, p') => (.error e, p')

/-- Takes `k` requests from bytes that are all there. -/
def takeEach (p : ByteParser) (l : Bytes) : Nat → Series (ByteParser × Bytes)
  | 0 => { left := (p, l) }
  | k + 1 =>
    match p.take l with
    | (.ok (q, l'), p') => (p'.takeEach l' k).cons q
    | (.error e, p') => { error? := some e, left := (p', l) }

/-- A parser whose request was taken is a new one. -/
theorem takeRequest_feedSlice (limits : Limits) (l : Bytes) :
    ((ofLimits limits).feedSlice l).2.takeRequest.2 = ofLimits limits := by
  have hlimits := ((Situation.start limits).use (.feedSlice l)).limits_eq
  change { limits := ((ofLimits limits).feedSlice l).2.limits } = ofLimits limits
  rw [show ((ofLimits limits).feedSlice l).2.limits = limits from hlimits]
  rfl

end ByteParser

namespace LineParser

open ByteParser (ofLimits)

/-- Each of the requests is what new parsers of both kinds take from the bytes that are left by
those before it. -/
inductive TakenAnew (limits : Limits) : Bytes → List Request → Bytes → Prop where
  | nil (l : Bytes) : TakenAnew limits l [] l
  | cons {l l' rest : Bytes} {q : Request} {qs : List Request} :
    ((ofLimits limits).take l).1 = .ok (q, l') → ((LineParser.mk limits).parseBytes l).1 = .ok q →
    TakenAnew limits l' qs rest → TakenAnew limits l (q :: qs) rest

variable {P : σ → Bytes → Prop} {r : Reader σ}

/-- A reader answers like one in front of the same bytes in memory. -/
theorem parse_eq_parseBytes (limits : Limits) (hP : Source.IsDelivery P) (hr : r.Holds P raw) :
    ((LineParser.mk limits).parse r).1 = ((LineParser.mk limits).parseBytes raw).1 :=
  (parse_sameAnswer hP MemoryStream.isDelivery ⟨raw, List.suffix_rfl, hr,
    Reader.holds_withCapacity 4096 (MemoryStream.delivers_ofInput raw)⟩).answer

/-- Both parsers take the same request and leave the same bytes, or both reject. -/
theorem parse_take (limits : Limits) (hP : Source.IsDelivery P) (hr : r.Holds P raw) :
    (∃ q rest r', (LineParser.mk limits).parse r = (.ok q, r') ∧ r'.Holds P rest ∧
        (ofLimits limits).take raw = (.ok (q, rest), ofLimits limits)) ∨
      ∃ e e' r' p, (LineParser.mk limits).parse r = (.error e, r') ∧
        (ofLimits limits).take raw = (.error e', p) := by
  have hverdict : Agreement.Verdict P limits raw _ _ := Agreement.parse_verdict hP hr
  have hnew := ByteParser.takeRequest_feedSlice limits raw
  unfold ByteParser.take
  generalize (LineParser.mk limits).parse r = x at hverdict
  generalize (ofLimits limits).feedSlice raw = y at hverdict hnew
  cases hverdict with
  | @complete m tail r' p hm hraw hr' hreq =>
    have hrest : raw.drop m.render.length = tail := by rw [hraw, List.drop_left]
    refine .inl ⟨m.request, tail, r', rfl, hr', ?_⟩
    dsimp only at hnew ⊢
    rw [hrest, hnew, ← hreq]
    rfl
  | failed hf =>
    cases hf with
    | pending | tooLarge | rejected => exact .inr ⟨_, _, _, _, rfl, rfl⟩

/-- A reader that is asked for requests and a parser that is fed the bytes take the same ones, in
the same order, which new parsers take, too. They go on for as long as they are asked to, and
both leave the same bytes; or both are stopped before the same request, for the reasons for which
new parsers reject it. -/
theorem parseEach_takeEach (limits : Limits) (hP : Source.IsDelivery P) (hr : r.Holds P raw)
    (k : Nat) :
    let lines := (LineParser.mk limits).parseEach r k
    let bytes := (ofLimits limits).takeEach raw k
    lines.requests = bytes.requests ∧ ∃ rest, TakenAnew limits raw bytes.requests rest ∧
      (bytes.requests.length = k ∧ lines.error? = none ∧ bytes.error? = none ∧
          lines.left.Holds P rest ∧ bytes.left = (ofLimits limits, rest) ∨
        bytes.requests.length < k ∧ ∃ e e', lines.error? = some e ∧ bytes.error? = some e' ∧
          ((LineParser.mk limits).parseBytes rest).1 = .error e ∧
          ((ofLimits limits).take rest).1 = .error e') := by
  induction k generalizing r raw with
  | zero => exact ⟨rfl, raw, .nil raw, .inl ⟨rfl, rfl, rfl, hr, rfl⟩⟩
  | succ k ih =>
    have hmemory := parse_eq_parseBytes limits hP hr
    intro lines bytes
    unfold lines bytes parseEach ByteParser.takeEach
    rcases parse_take limits hP hr with
      ⟨q, l', r', hline, hr', htake⟩ | ⟨e, e', r', p, hline, htake⟩
    · rw [hline] at hmemory
      rw [hline, htake]
      obtain ⟨hreq, rest, hanew, hend⟩ := ih hr'
      refine ⟨congrArg (q :: ·) hreq, rest, .cons (congrArg Prod.fst htake) hmemory.symm hanew, ?_⟩
      rcases hend with ⟨hlen, hgoes⟩ | ⟨hlen, hstops⟩
      · exact .inl ⟨congrArg (· + 1) hlen, hgoes⟩
      · exact .inr ⟨Nat.succ_lt_succ hlen, hstops⟩
    · rw [hline] at hmemory
      rw [hline, htake]
      exact ⟨rfl, raw, .nil raw, .inr ⟨Nat.succ_pos k, e, e', rfl, rfl, hmemory.symm,
        congrArg Prod.fst htake⟩⟩

/-- Two requests, of which the first one's last piece brings the second one's body, too, and the
start of a third one. -/
def conversation : ScriptSource where
  arrivals := [.chunk (utf8 "GET / HTTP/1.1\r\n\r"), .failure .interrupted,
    .chunk (utf8 "\nPUT /a HTTP/1.1\r\nContent-Length: 2\r\n\r\nhiGET /b H")]

/-- Both ways take the two requests and are stopped before the third. -/
theorem parseEach_takeEach_conversation :
    let lines := (LineParser.mk {}).parseEach (Reader.withCapacity 0 conversation) 3
    let bytes := (ofLimits {}).takeEach (ScriptSource.bytes conversation.arrivals) 3
    lines.requests = bytes.requests ∧ bytes.requests.length = 2 ∧ lines.error?.isSome = true := by
  intro lines bytes
  have hdelivers : conversation.Delivers (ScriptSource.bytes conversation.arrivals) :=
    ⟨rfl, by simp [conversation, ScriptSource.Passing]; decide, rfl⟩
  obtain ⟨hreq, rest, -, hend⟩ := parseEach_takeEach {} ScriptSource.isDelivery
    (Reader.holds_withCapacity 0 hdelivers) 3
  have hlen : bytes.requests.length = 2 := by decide +kernel
  refine ⟨hreq, hlen, ?_⟩
  rcases hend with ⟨hthree, -⟩ | ⟨-, e, e', he, -⟩
  · exact absurd (hlen.symm.trans hthree) (by decide)
  · exact Option.isSome_iff_exists.2 ⟨e, he⟩

end LineParser

end HttpServer
