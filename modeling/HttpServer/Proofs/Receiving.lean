import HttpServer.Proofs.Offering
import HttpServer.Proofs.Overflowing
import HttpServer.Reception

/-!
# Two ways to receive a request

A request can be taken from a stream that waits for it, by the parser that takes lines
(`Context.receive?`). It can also come in over a stream that never waits : a `Reception` is
advanced whenever something has arrived, feeds what there is to the other parser and leaves
that wherever the bytes run out.

`Stream.supply` says what a stream gives at the moment : certain bytes, and after them its end
or a failure, which may only mean that there is nothing yet. One advance feeds all that is
supplied (`Reception.advance_of_supply`), so several of them feed the bytes that the arrivals
bring together (`Reception.advanceEach_of_supply`, `Reception.advanceEach_of_arriving`). A
reception panics where the parser does (`Reception.advanceEach?_of_supply`).

As the two parsers agree wherever the bytes do not overflow, both ways make the same context
exactly there (`Reception.receivedAlike_iff`).
-/

namespace HttpServer

/-! ## Advancing -/

namespace Reception

/-- What feeding all that is supplied means for the one who asked for it. -/
def answer (stop : Option IoKind) :
    Except ParseError (Progress × Nat) × ByteParser → Except ParseError Progress
  | (.ok (.pending, _), p) =>
    match stop with
    | none => .error p.endError
    | some kind => if kind = .wouldBlock then .ok .pending else .error .read
  | (.ok (.complete, _), _) => .ok .complete
  | (.error e, _) => .error e

variable {P : Stream → Bytes → Prop} {Q : Stream → Prop} {stop : Option IoKind} {r : Reception}
  {l : Bytes}

/-- One advance feeds all that is supplied. If the answer is pending, nothing is left in the
reader. -/
theorem advance_of_supply (hP : Source.IsSupply P Q stop) (h : r.reader.Holds P l) (n : Nat) :
    ∃ reader, r.advance = (answer stop (r.parser.feedList n l),
        { r with reader, parser := (r.parser.feedList n l).2 }) ∧
      (answer stop (r.parser.feedList n l) = .ok .pending → reader.Idle) := by
  induction l generalizing r n with
  | nil =>
    obtain ⟨reader, hread, hidle⟩ := Reader.readByte_of_nil hP h
    rw [advance_eq, hread]
    rcases stop with _ | kind
    · exact ⟨reader, rfl, fun _ => hidle⟩
    · by_cases hk : kind = .wouldBlock
      · subst hk
        exact ⟨reader, rfl, fun _ => hidle⟩
      · simp only [Reader.ByteRead.ofStop, answer, ByteParser.feedList, if_neg hk]
        exact ⟨reader, rfl, fun _ => hidle⟩
  | cons b l ih =>
    obtain ⟨reader, hread, hholds⟩ := Reader.readByte_of_cons hP h
    rw [advance_eq, hread, ByteParser.feedList]
    dsimp only
    rcases r.parser.feed b with ⟨e | _ | _, parser⟩
    · exact ⟨reader, rfl, fun h0 => by cases h0⟩
    · exact ih (r := { r with reader, parser }) hholds (n + 1)
    · exact ⟨reader, rfl, fun h0 => by cases h0⟩

/-- An advance has an answer if feeding all that is supplied has one. -/
theorem advance?_of_supply (hP : Source.IsSupply P Q stop) (h : r.reader.Holds P l) (n : Nat) :
    r.advance? = (r.parser.feedList? n l).map fun _ => r.advance := by
  induction l generalizing r n with
  | nil =>
    obtain ⟨reader, hread, -⟩ := Reader.readByte_of_nil hP h
    rw [advance?_eq, advance_eq, hread]
    rcases stop with _ | kind
    · rfl
    · by_cases hk : kind = .wouldBlock
      · subst hk
        rfl
      · simp only [Reader.ByteRead.ofStop, if_neg hk]
        rfl
  | cons b l ih =>
    obtain ⟨reader, hread, hholds⟩ := Reader.readByte_of_cons hP h
    rw [advance?_eq, advance_eq, hread, ByteParser.feedList?]
    dsimp only
    rcases hb : r.parser.feed? b with _ | ⟨e | _ | _, parser⟩
    · rfl
    all_goals rw [ByteParser.feed_of_feed? hb]
    · rfl
    · exact ih (r := { r with reader, parser }) hholds (n + 1)
    · rfl

/-- The reception after its stream has changed. -/
def onStream (r : Reception) (s : Stream) : Reception :=
  { r with reader := { r.reader with source := s } }

theorem advance_onStream (hr : r.reader.Idle) (s : Stream) (n : Nat) :
    ∃ reader, (r.onStream s).advance =
        (answer s.supply.2 (r.parser.feedList n s.supply.1),
          { r with reader, parser := (r.parser.feedList n s.supply.1).2 }) ∧
      (answer s.supply.2 (r.parser.feedList n s.supply.1) = .ok .pending → reader.Idle) :=
  advance_of_supply (r := r.onStream s) (Stream.isSupply s.supply.2) (hr.holds rfl) n

theorem advance?_onStream (hr : r.reader.Idle) (s : Stream) (n : Nat) :
    (r.onStream s).advance? =
      (r.parser.feedList? n s.supply.1).map fun _ => (r.onStream s).advance :=
  advance?_of_supply (r := r.onStream s) (Stream.isSupply s.supply.2) (hr.holds rfl) n

/-- Advances once for every arrival, each of which leaves the stream as given, until the
answer is not pending. -/
def advanceEach (r : Reception) : List Stream → Except ParseError Progress × Reception
  | [] => (.ok .pending, r)
  | s :: ss =>
    match (r.onStream s).advance with
    | (.ok .pending, r') => r'.advanceEach ss
    | x => x

/-- Advances once for every arrival, as long as there is an answer. -/
def advanceEach? (r : Reception) : List Stream → Option (Except ParseError Progress × Reception)
  | [] => some (.ok .pending, r)
  | s :: ss =>
    match (r.onStream s).advance? with
    | none => none
    | some (.ok .pending, r') => r'.advanceEach? ss
    | some x => some x

/-- The bytes that arrivals bring together. -/
def suppliedBy (ss : List Stream) : Bytes := ss.flatMap (·.supply.1)

/-- Advancing once for every arrival feeds the bytes that they bring together, if there is
nothing yet after each of them but the last. -/
theorem advanceEach_of_supply {ss : List Stream} (hss : ∀ s ∈ ss, s.supply.2 = some .wouldBlock)
    (last : Stream) (hr : r.reader.Idle) (n : Nat) :
    ∃ reader, r.advanceEach (ss ++ [last]) =
      (answer last.supply.2 (r.parser.feedList n (suppliedBy (ss ++ [last]))),
        { r with reader, parser := (r.parser.feedList n (suppliedBy (ss ++ [last]))).2 }) := by
  induction ss generalizing r n with
  | nil =>
    obtain ⟨reader, hadv, -⟩ := advance_onStream hr last n
    have hlast : suppliedBy ([] ++ [last]) = last.supply.1 := List.flatMap_singleton ..
    rw [List.nil_append, advanceEach, hadv, ← List.nil_append [last], hlast]
    refine ⟨reader, ?_⟩
    rcases answer last.supply.2 _ with e | _ | _ <;> rfl
  | cons s ss ih =>
    obtain ⟨hs, hss⟩ := List.forall_mem_cons.1 hss
    obtain ⟨reader, hadv, hidle⟩ := advance_onStream hr s n
    have hmore : suppliedBy (s :: ss ++ [last]) = s.supply.1 ++ suppliedBy (ss ++ [last]) :=
      List.flatMap_cons
    rw [List.cons_append, advanceEach, hadv, ← List.cons_append, hmore, ByteParser.feedList_append]
    rw [hs] at hidle ⊢
    generalize r.parser.feedList n s.supply.1 = x at hidle
    rcases x with ⟨e | ⟨_ | _, k⟩, p⟩
    · exact ⟨reader, rfl⟩
    · exact ih hss (r := { r with reader, parser := p }) (hidle rfl) k
    · exact ⟨reader, rfl⟩

/-- There is an answer if feeding the bytes that the arrivals bring together has one. -/
theorem advanceEach?_of_supply {ss : List Stream} (hss : ∀ s ∈ ss, s.supply.2 = some .wouldBlock)
    (last : Stream) (hr : r.reader.Idle) (n : Nat) :
    r.advanceEach? (ss ++ [last]) =
      (r.parser.feedList? n (suppliedBy (ss ++ [last]))).map fun _ =>
        r.advanceEach (ss ++ [last]) := by
  induction ss generalizing r n with
  | nil =>
    have hadv := advance?_onStream hr last n
    have hlast : suppliedBy [last] = last.supply.1 := List.flatMap_singleton ..
    rw [List.nil_append, advanceEach?, advanceEach, hadv, hlast]
    cases r.parser.feedList? n last.supply.1 with
    | none => rfl
    | some y =>
      rcases (r.onStream last).advance with ⟨_ | _ | _, r'⟩
      · rfl
      · rfl
      · rfl
  | cons s ss ih =>
    obtain ⟨hs, hss⟩ := List.forall_mem_cons.1 hss
    have hadv := advance?_onStream hr s n
    obtain ⟨reader, hadv', hidle⟩ := advance_onStream hr s n
    have hmore : suppliedBy (s :: ss ++ [last]) = s.supply.1 ++ suppliedBy (ss ++ [last]) :=
      List.flatMap_cons
    rw [List.cons_append, advanceEach?, advanceEach, hadv, ← List.cons_append, hmore,
      ByteParser.feedList?_append]
    rcases hy : r.parser.feedList? n s.supply.1 with _ | y
    · rfl
    rw [ByteParser.feedList_of_feedList? hy, hs] at hadv' hidle
    rw [hadv']
    rcases y with ⟨e | ⟨_ | _, k⟩, p⟩
    · rfl
    · exact ih hss (r := { r with reader, parser := p }) (hidle rfl) k
    · rfl

end Reception

/-- Each arrival makes the stream offer one part of the bytes, and the last one its end, too. -/
inductive Stream.Arriving : List Stream → List Bytes → Prop where
  | last {s : Stream} {l : Bytes} : s.Offers l true → Arriving [s] [l]
  | more {s : Stream} {ss : List Stream} {l : Bytes} {parts : List Bytes} :
    s.Offers l false → Arriving ss parts → Arriving (s :: ss) (l :: parts)

/-- Arrivals supply their parts, and all but the last have nothing more yet. -/
theorem Stream.Arriving.supply {ss : List Stream} {parts : List Bytes} (h : Arriving ss parts) :
    ∃ init last, ss = init ++ [last] ∧ (∀ s ∈ init, s.supply.2 = some .wouldBlock) ∧
      last.supply.2 = none ∧ Reception.suppliedBy (init ++ [last]) = parts.flatten := by
  induction h with
  | @last s l hs =>
    have hsupply := Stream.supply_of_offers hs
    exact ⟨[], s, rfl, by simp, by rw [hsupply]; rfl, by simp [Reception.suppliedBy, hsupply]⟩
  | @more s _ l _ hs _ ih =>
    obtain ⟨init, last, rfl, hinit, hlast, hparts⟩ := ih
    have hsupply := Stream.supply_of_offers hs
    refine ⟨s :: init, last, rfl, ?_, hlast, ?_⟩
    · rw [List.forall_mem_cons, hsupply]
      exact ⟨rfl, hinit⟩
    · rw [List.flatten_cons, ← hparts, List.cons_append, Reception.suppliedBy, List.flatMap_cons,
        hsupply, Reception.suppliedBy]

namespace Reception

/-- Advancing once for every arrival feeds the bytes that they bring together. -/
theorem advanceEach_of_arriving {ss : List Stream} {parts : List Bytes} {r : Reception}
    (h : Stream.Arriving ss parts) (hr : r.reader.Idle) (n : Nat) :
    ∃ reader, r.advanceEach ss = (answer none (r.parser.feedList n parts.flatten),
      { r with reader, parser := (r.parser.feedList n parts.flatten).2 }) := by
  obtain ⟨init, last, rfl, hinit, hlast, hparts⟩ := h.supply
  rw [← hlast, ← hparts]
  exact advanceEach_of_supply hinit last hr n

theorem advanceEach?_of_arriving {ss : List Stream} {parts : List Bytes} {r : Reception}
    (h : Stream.Arriving ss parts) (hr : r.reader.Idle) (n : Nat) :
    r.advanceEach? ss = (r.parser.feedList? n parts.flatten).map fun _ => r.advanceEach ss := by
  obtain ⟨init, last, rfl, hinit, -, hparts⟩ := h.supply
  rw [← hparts]
  exact advanceEach?_of_supply hinit last hr n

theorem idle_ofStream (limits : Limits) (s : Stream) (peer? : Option Address) :
    (ofStream limits s peer?).reader.Idle where
  size_pos := (by decide : 0 < max 4096 16)
  tail_le := Nat.zero_le _
  window_eq := rfl

/-- The context that is made of the last answer. -/
def conclude : Except ParseError Progress × Reception → Context
  | (.ok _, r) => r.finish none
  | (.error e, r) => r.finish (some e)

end Reception

/-! ## Contexts -/

/-- The host that the address of a peer stands for, empty if there is no address. -/
def peerHost (peer? : Option Address) : Bytes := (peer?.map Address.host).getD []

theorem Context.fillHost_eq (r : Request) (peer? : Option Address) :
    fillHost r peer? = { r with host := if r.host = [] then peerHost peer? else r.host } := by
  cases peer? with
  | none =>
    by_cases h : r.host = []
    · rw [if_pos h]
      change r = { r with host := [] }
      rw [← h]
    · rw [if_neg h]
      rfl
  | some a =>
    change (if r.host = [] then { r with host := a.host } else r) = _
    split <;> rfl

/-- The host of a message is the value of its last `Host` line. If it has none, the address of
the peer fills in. -/
theorem Context.fillHost_request {m : Message} (hv : ∀ h ∈ m.headers, h.Valid)
    (peer? : Option Address) :
    fillHost m.request peer? = { m.request with
      host := (lastValue? (fun h => h.known? = some .host) m.headers).getD (peerHost peer?) } := by
  have hhost := (Message.denotes_request hv).host
  rw [fillHost_eq, hhost]
  cases hlast : lastValue? (fun h => h.known? = some .host) m.headers with
  | none => rfl
  | some v =>
    obtain ⟨g, hg, -, rfl⟩ := lastValue?_eq_some hlast
    rw [Option.getD_some, Option.getD_some, if_neg (hv g hg).value_ne_nil]

namespace Reception

/-- A request is received alike in both ways : `direct` is the context that was made at once, and
`last` what the last of several arrivals led to. -/
structure ReceivedAlike (limits : Limits) (peer? : Option Address) (raw : Bytes)
    (direct : Context) (last : Except ParseError Progress × Reception) : Prop where
  request : direct.request = (conclude last).request
  response : direct.response = {} ∧ (conclude last).response = {}
  peer : direct.peer? = peer? ∧ (conclude last).peer? = peer?
  /-- If the bytes begin with a message of the grammar, both contexts have its request, and a
  request that names no host gets the address of the peer. Otherwise both have nothing but that
  address. -/
  outcome : (last.1 = .ok .complete ∧ direct.parseError? = none ∧
      (conclude last).parseError? = none ∧
      ∃ (m : Message) (tail : Bytes), m.Fits limits ∧ raw = m.render ++ tail ∧
        (conclude last).request = { m.request with
          host := (lastValue? (fun h => h.known? = some .host) m.headers).getD (peerHost peer?) }) ∨
    ∃ e e', last.1 = .error e' ∧ direct.parseError? = some e ∧
      (conclude last).parseError? = some e' ∧
      (conclude last).request = { host := peerHost peer? }

/-- As the two parsers agree, their answers to the same bytes make the same context. -/
theorem receivedAlike_of_verdict {P : Stream → Bytes → Prop} {raw : Bytes}
    {x : Except ParseError Request × Reader Stream}
    {y : Except ParseError (Progress × Nat) × ByteParser} (limits : Limits)
    (peer? : Option Address) (reader : Reader Stream) (h : Agreement.Verdict P limits raw x y) :
    ReceivedAlike limits peer? raw (Context.ofParsed x.1 x.2.intoSource peer?)
      (answer none y, { reader, parser := y.2, peer? }) := by
  cases h with
  | @complete m tail r p hm hraw hr hreq =>
    have hfill := Context.fillHost_request hm.headers_valid peer?
    have hdirect : Context.fillHost m.request peer? = Context.fillHost p.request peer? := by
      rw [hreq]
    exact ⟨hdirect, ⟨rfl, rfl⟩, ⟨rfl, rfl⟩, .inl ⟨rfl, rfl, rfl, m, tail, hm, hraw, hreq ▸ hfill⟩⟩
  | failed hf =>
    have hfill := Context.fillHost_eq {} peer?
    rw [if_pos rfl] at hfill
    cases hf with
    | pending => exact ⟨rfl, ⟨rfl, rfl⟩, ⟨rfl, rfl⟩, .inr ⟨_, _, rfl, rfl, rfl, hfill⟩⟩
    | tooLarge => exact ⟨rfl, ⟨rfl, rfl⟩, ⟨rfl, rfl⟩, .inr ⟨_, _, rfl, rfl, rfl, hfill⟩⟩
    | rejected => exact ⟨rfl, ⟨rfl, rfl⟩, ⟨rfl, rfl⟩, .inr ⟨_, _, rfl, rfl, rfl, hfill⟩⟩

theorem receive?_eq_none_iff (limits : Limits) {s : Stream} {raw : Bytes} (hs : s.Offers raw true)
    (peer? : Option Address) :
    Context.receive? (LineParser.mk limits) s peer? = none ↔ Overflows limits raw :=
  Option.map_eq_none_iff.trans (LineParser.parse?_eq_none_iff Stream.isOffer.isDelivery.isSupply
    (Reader.holds_withCapacity 4096 hs))

theorem advanceEach?_eq_none_iff (limits : Limits) {ss : List Stream} {parts : List Bytes}
    (hss : Stream.Arriving ss parts) (s₀ : Stream) (peer? : Option Address) :
    (ofStream limits s₀ peer?).advanceEach? ss = none ↔ Overflows limits parts.flatten := by
  rw [advanceEach?_of_arriving hss (idle_ofStream limits s₀ peer?) 0, Option.map_eq_none_iff,
    ← ByteParser.feedSlice?_eq_none_iff, ByteParser.feedSlice?_ofLimits]
  rfl

theorem receive?_of_not_overflows (limits : Limits) {s : Stream} {raw : Bytes}
    (hs : s.Offers raw true) (peer? : Option Address) (h : ¬Overflows limits raw) :
    let x := (LineParser.mk limits).parse (Reader.withCapacity 4096 s)
    Context.receive? (LineParser.mk limits) s peer? =
      some (Context.ofParsed x.1 x.2.intoSource peer?) :=
  congrArg (Option.map _) (LineParser.parse?_of_not_overflows Stream.isOffer.isDelivery.isSupply
    (Reader.holds_withCapacity 4096 hs) h)

theorem advanceEach?_of_not_overflows (limits : Limits) {ss : List Stream} {parts : List Bytes}
    (hss : Stream.Arriving ss parts) (s₀ : Stream) (peer? : Option Address)
    (h : ¬Overflows limits parts.flatten) :
    let y := (ByteParser.ofLimits limits).feedSlice parts.flatten
    ∃ reader, (ofStream limits s₀ peer?).advanceEach? ss =
      some (answer none y, { reader, parser := y.2, peer? }) := by
  intro y
  have hidle := idle_ofStream limits s₀ peer?
  obtain ⟨reader, hadv⟩ := advanceEach_of_arriving hss hidle 0
  refine ⟨reader, ?_⟩
  rw [advanceEach?_of_arriving hss hidle 0, hadv]
  change ((ByteParser.ofLimits limits).feedList? 0 _).map _ = _
  rw [← ByteParser.feedSlice?_ofLimits, ByteParser.feedSlice?_of_not_overflows h]
  unfold y
  rw [ByteParser.feedSlice_ofLimits]
  rfl

/-- A request that is taken from a stream that delivers all of its bytes, and one that is fed as
they arrive in parts, the last one with the end of the stream, are received alike exactly where
the bytes do not overflow. Where they do, there is no context in either way. -/
theorem receivedAlike_iff (limits : Limits) (peer? : Option Address) (s₀ : Stream)
    {s : Stream} {ss : List Stream} {parts : List Bytes} (hs : s.Offers parts.flatten true)
    (hss : Stream.Arriving ss parts) :
    let direct := Context.receive? (LineParser.mk limits) s peer?
    let last := (ofStream limits s₀ peer?).advanceEach? ss
    ((∃ c x, direct = some c ∧ last = some x ∧ ReceivedAlike limits peer? parts.flatten c x) ↔
        ¬Overflows limits parts.flatten) ∧
      (direct = none ↔ Overflows limits parts.flatten) ∧
      (last = none ↔ Overflows limits parts.flatten) := by
  intro direct last
  have hdirect : direct = none ↔ Overflows limits parts.flatten :=
    receive?_eq_none_iff limits hs peer?
  refine ⟨⟨?_, fun h => ?_⟩, hdirect, advanceEach?_eq_none_iff limits hss s₀ peer?⟩
  · rintro ⟨c, x, hc, -, -⟩ hover
    cases (hdirect.2 hover).symm.trans hc
  · obtain ⟨reader, hlast⟩ := advanceEach?_of_not_overflows limits hss s₀ peer? h
    exact ⟨_, _, receive?_of_not_overflows limits hs peer? h, hlast,
      receivedAlike_of_verdict limits peer? reader (Agreement.parse_verdict
        Stream.isOffer.isDelivery (Reader.holds_withCapacity 4096 hs))⟩

/-- What has arrived after each of three arrivals, of which the second ends inside a header line
and the last brings nothing but the end. -/
def arrivals : List Stream :=
  [.memory (.pending (utf8 "GET / HTT")), .memory (.pending (utf8 "P/1.1\r\nHost: a")),
    .memory (.ofInput [])]

/-- The same bytes at a socket that gives them in small pieces. -/
def slowSocket : Socket where
  incoming := utf8 "GET / HTTP/1.1\r\nHost: a"
  peerEnded := true
  pacing := [.short 2, .interrupt, .short 0]

/-- The bytes end too early for both, and all that is left is where they came from. -/
theorem receivedAlike_iff_arrivals :
    let peer? : Option Address := some { ip := .v4 10 0 0 7, port := 80, scope := 0 }
    ∃ c x, Context.receive? (LineParser.mk {}) (.socket slowSocket) peer? = some c ∧
      (ofStream {} (.memory {}) peer?).advanceEach? arrivals = some x ∧
      c.request = (conclude x).request ∧ c.response = {} ∧ (conclude x).response = {} ∧
      c.peer? = peer? ∧ (conclude x).peer? = peer? ∧
      (c.parseError? = none ↔ (conclude x).parseError? = none) := by
  intro peer?
  have hslow : (Stream.socket slowSocket).Offers (List.flatten [utf8 "GET / HTT",
      utf8 "P/1.1\r\nHost: a", []]) true := ⟨by decide, by decide, rfl⟩
  have harriving : Stream.Arriving arrivals [utf8 "GET / HTT", utf8 "P/1.1\r\nHost: a", []] :=
    .more ⟨rfl, rfl, rfl⟩ (.more ⟨rfl, rfl, rfl⟩ (.last ⟨rfl, rfl, rfl⟩))
  obtain ⟨c, x, hc, hx, h⟩ :=
    (receivedAlike_iff {} peer? (.memory {}) hslow harriving).1.2
      (not_overflows_of_maxBody (by decide))
  refine ⟨c, x, hc, hx, h.request, h.response.1, h.response.2, h.peer.1, h.peer.2, ?_⟩
  rcases h.outcome with ⟨-, hd, hl, -⟩ | ⟨e, e', -, hd, hl, -⟩
  · exact ⟨fun _ => hl, fun _ => hd⟩
  · constructor
    · intro h0
      cases hd.symm.trans h0
    · intro h0
      cases hl.symm.trans h0

/-- No context comes of it in either way, though nothing exceeds the limits. -/
theorem not_receivedAlike_vast :
    let raw := utf8 "POST / HTTP/1.1\r\nContent-Length: 9223372036854775808\r\n\r\n"
    let limits : Limits := { maxBody := 9223372036854775808 }
    let direct := Context.receive? (LineParser.mk limits) (.memory (.ofInput raw)) none
    let last := (ofStream limits (.memory {}) none).advanceEach? [.memory (.ofInput raw)]
    (¬∃ c x, direct = some c ∧ last = some x ∧ ReceivedAlike limits none raw c x) ∧
      direct = none ∧ last = none := by
  intro raw limits direct last
  have hover : Overflows limits raw := overflows_vast
  have hoffers : (Stream.memory (.ofInput raw)).Offers raw true := ⟨rfl, rfl, rfl⟩
  have hdirect : direct = none := (receive?_eq_none_iff limits hoffers none).2 hover
  have harriving : Stream.Arriving [.memory (.ofInput raw)] [raw] := .last hoffers
  have hlast : last = none := (advanceEach?_eq_none_iff limits harriving (.memory {}) none).2
    (by rwa [List.flatten_singleton])
  refine ⟨?_, hdirect, hlast⟩
  rintro ⟨c, x, hc, -, -⟩
  cases hdirect.symm.trans hc

end Reception

end HttpServer
