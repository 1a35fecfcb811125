import HttpServer.Proofs.Receiving
import HttpServer.Proofs.Recognition
import HttpServer.Server.EventLoop

/-!
# What a connection has brought

A connection that comes to an event loop gives its bytes over time, as they arrive. `Took` says
which bytes its stream has given after some events, and what they have made of its reception.
None of them is lost or fed twice (`Took.fed`), so that it does not matter when they came : the
reception is as if they had been fed at once to a new parser.

A connection is handed on when its reception `Concludes`. By then its own bytes begin with a
message of the grammar, or there is a fault in them that can still be answered (`Took.due`).
-/

namespace HttpServer.Server

variable {limits : Limits} {c : Incoming} {es : List Event} {l : Bytes} {r r' : Reception}
  {x : Context}

/-! ## What a connection has brought -/

/-- What happens to a connection while it waits. -/
inductive Event where
  /-- Something arrives, or the peer ends or goes. -/
  | arrives (f : Stream → Stream)
  /-- All that is there is read. -/
  | isRead

/-- What the stream of a connection has given so far, and the reception that took it. -/
inductive Took (limits : Limits) (c : Incoming) : List Event → Bytes → Reception → Prop where
  | start : Took limits c [] [] (.ofStream limits c.stream (some c.peer))
  | arrives {es : List Event} {l : Bytes} {r : Reception} (f : Stream → Stream) :
    Took limits c es l r → Took limits c (es ++ [.arrives f]) l (r.onStream (f r.stream))
  /-- More is needed. -/
  | isRead {es : List Event} {l : Bytes} {r r' : Reception} : Took limits c es l r →
    r.advance = (.ok .pending, r') →
    Took limits c (es ++ [.isRead]) (l ++ r.stream.supply.1) r'

/-- A connection is handed on with a context that is made of its request, or of what is wrong
with it. -/
inductive Concludes (r : Reception) : Context → Prop where
  | complete {r' : Reception} : r.advance = (.ok .complete, r') → Concludes r (r'.finish none)
  | rejected {r' : Reception} {e : ParseError} : r.advance = (.error e, r') → e ≠ .read →
    Concludes r (r'.finish (some e))

/-- What is wrong with the bytes that a stream gave before it stopped : one of them is rejected,
or the stream has ended inside the body. -/
inductive Faulty (limits : Limits) (l : Bytes) (stop : Option IoKind) : ParseError → Prop where
  | rejected {e : ParseError} : ((ByteParser.ofLimits limits).feedSlice l).1 = .error e →
    Faulty limits l stop e
  | cutOff {n : Nat} {p : ByteParser} :
    (ByteParser.ofLimits limits).feedSlice l = (.ok (.pending, n), p) → p.state = .body →
    stop = none → Faulty limits l stop .bodyLength

/-- What the bytes of a connection have to be for it to be handed on when it is read from after
some events. -/
inductive Due (limits : Limits) (c : Incoming) (es : List Event) (x : Context) : Prop where
  /-- They begin with a message of the grammar. -/
  | complete {l tail : Bytes} {r : Reception} {m : Message} : Took limits c es l r →
    Concludes r x → m.Fits limits → l ++ r.stream.supply.1 = m.render ++ tail →
    x.request = Context.fillHost m.request (some c.peer) → x.parseError? = none →
    Due limits c es x
  /-- They are not to be read as a message, but the stream can still be written to. -/
  | faulty {l : Bytes} {r : Reception} {e : ParseError} : Took limits c es l r →
    Concludes r x → Faulty limits (l ++ r.stream.supply.1) r.stream.supply.2 e → e ≠ .read →
    x.parseError? = some e → Due limits c es x

/-! ## What a reception has taken -/

section Answer

variable {stop : Option IoKind} {y : Except ParseError (Progress × Nat) × ByteParser}
  {e : ParseError}

theorem fed_of_pending (h : Reception.answer stop y = .ok .pending) :
    ∃ n, y = (.ok (.pending, n), y.2) := by
  obtain ⟨_ | ⟨_ | _, n⟩, p⟩ := y
  · cases h
  · exact ⟨n, rfl⟩
  · cases h

theorem fed_of_complete (h : Reception.answer stop y = .ok .complete) :
    ∃ n, y.1 = .ok (.complete, n) := by
  obtain ⟨_ | ⟨_ | _, n⟩, p⟩ := y
  · cases h
  · unfold Reception.answer at h
    dsimp only at h
    repeat' split at h
    all_goals cases h
  · exact ⟨n, rfl⟩

theorem faulty_of_error (h : Reception.answer stop ((ByteParser.ofLimits limits).feedSlice l) =
    .error e) (he : e ≠ .read) : Faulty limits l stop e := by
  rcases hy : (ByteParser.ofLimits limits).feedSlice l with ⟨_ | ⟨_ | _, n⟩, p⟩
  · rw [hy] at h
    cases h
    exact .rejected (congrArg Prod.fst hy)
  · rw [hy] at h
    cases stop with
    | none =>
      have hend : p.endError = e := Except.error.inj h
      unfold ByteParser.endError at hend
      split at hend
      · rename_i hbody
        subst hend
        exact .cutOff hy hbody rfl
      · exact absurd hend.symm he
    | some kind =>
      simp only [Reception.answer] at h
      split at h
      · cases h
      · exact absurd (Except.error.inj h).symm he
  · rw [hy] at h
    cases h

end Answer

/-- The reception has fed the bytes and has none left. -/
structure Fed (limits : Limits) (c : Incoming) (l : Bytes) (r : Reception) : Prop where
  peer : r.peer? = some c.peer
  idle : r.reader.Idle
  pending : ∃ n, (ByteParser.ofLimits limits).feedSlice l = (.ok (.pending, n), r.parser)

/-- One more advance feeds what the stream gives. -/
theorem Fed.advance (h : Fed limits c l r) : ∃ reader,
    r.advance = (Reception.answer r.stream.supply.2
        ((ByteParser.ofLimits limits).feedSlice (l ++ r.stream.supply.1)),
      { r with
        reader
        parser := ((ByteParser.ofLimits limits).feedSlice (l ++ r.stream.supply.1)).2 }) ∧
      (Reception.answer r.stream.supply.2
        ((ByteParser.ofLimits limits).feedSlice (l ++ r.stream.supply.1)) = .ok .pending →
          reader.Idle) := by
  obtain ⟨n, hl⟩ := h.pending
  have happend := ByteParser.feedList_append (.ofLimits limits) 0 l r.stream.supply.1
  rw [← ByteParser.feedSlice_ofLimits, ← ByteParser.feedSlice_ofLimits, hl] at happend
  rw [happend]
  exact Reception.advance_onStream h.idle r.stream n

theorem Took.fed (h : Took limits c es l r) : Fed limits c l r := by
  induction h with
  | start => exact ⟨rfl, Reception.idle_ofStream .., 0, rfl⟩
  | arrives f _ ih =>
    exact ⟨ih.peer, ⟨ih.idle.size_pos, ih.idle.tail_le, ih.idle.window_eq⟩, ih.pending⟩
  | isRead _ hadv ih =>
    obtain ⟨reader, hadv', hidle⟩ := ih.advance
    obtain ⟨hanswer, rfl⟩ := Prod.mk.inj (hadv'.symm.trans hadv)
    exact ⟨ih.peer, hidle hanswer, fed_of_pending hanswer⟩

/-- The bytes of a connection are what they have to be when it is handed on. -/
theorem Took.due (h : Took limits c es l r) (hx : Concludes r x) : Due limits c es x := by
  have hpeer := h.fed.peer
  obtain ⟨reader, hadv', -⟩ := h.fed.advance
  cases hx with
  | complete hadv =>
    obtain ⟨hanswer, rfl⟩ := Prod.mk.inj (hadv'.symm.trans hadv)
    obtain ⟨n, hcomplete⟩ := fed_of_complete hanswer
    obtain ⟨m, tail, hm, hl, -⟩ := ByteParser.fits_of_complete hcomplete
    obtain ⟨p, hrun, hreq⟩ := ByteParser.feedSlice_render hm tail
    refine .complete h (.complete hadv) hm hl ?_ rfl
    rw [hl, hrun]
    change Context.fillHost p.request r.peer? = _
    rw [hreq, hpeer]
  | rejected hadv he =>
    obtain ⟨hanswer, rfl⟩ := Prod.mk.inj (hadv'.symm.trans hadv)
    exact .faulty h (.rejected hadv he) (faulty_of_error hanswer he) he rfl

end HttpServer.Server
