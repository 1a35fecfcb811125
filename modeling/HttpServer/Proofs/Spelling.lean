import HttpServer.Proofs.Portions
import HttpServer.Proofs.Recognition
import HttpServer.Proofs.Registering
import HttpServer.Proofs.Resetting
import HttpServer.Proofs.Segmentation
import HttpServer.Proofs.WellFormed

/-!
# Spellings of a path

Several spellings lead to the same path : slashes at the end do not count, and a slash at the
front need not be written (`Path.Alike`). Whoever registers a handler, looks up a route, builds a
request, reads one or dispatches it brings the path into its written form, each on his own. They
agree because two spellings have the same written form exactly if they are alike
(`Path.clean_eq_clean_iff`), and a written form is its own written form.

`Request.AsksFor` tells which path a request asks for, as it was spelled by whoever built it or
sent it. A handler is found for such a request exactly if the path is alike to the one that the
handler was registered under (`Dispatcher.found_iff_alike`).
-/

namespace HttpServer

namespace Path

variable {p q t : Bytes}

/-! ## When two spellings are alike -/

/-- `t` is what is left of a spelling when all slashes at its end are removed. -/
def Trims (p t : Bytes) : Prop :=
  (∃ k, p = t ++ List.replicate k slash) ∧ t.getLast? ≠ some slash

/-- The path with a slash put in front of it if it is empty or lacks one. -/
def rooted (t : Bytes) : Bytes := if t.head? = some slash then t else slash :: t

/-- Two spellings are the same when all slashes at their ends are removed, and then one is put in
front where it is lacking. -/
def Alike (p q : Bytes) : Prop := ∃ t u, Trims p t ∧ Trims q u ∧ rooted t = rooted u

/-- What ends in no slash has nothing to be removed. -/
theorem trimSlashes_eq_self_iff : trimSlashes t = t ↔ t.getLast? ≠ some slash := by
  rw [trimSlashes_eq, List.rdropWhile_eq_self_iff]
  rcases List.eq_nil_or_concat t with rfl | ⟨l, b, rfl⟩
  · simp
  · simp

theorem trims_trimSlashes (p : Bytes) : Trims p (trimSlashes p) := by
  refine ⟨⟨(p.rtakeWhile (· = slash)).length, ?_⟩, ?_⟩
  · have hslashes : p.rtakeWhile (· = slash) = List.replicate _ slash :=
      List.eq_replicate_iff.2 ⟨rfl, fun b hb => by simpa using List.mem_rtakeWhile_imp hb⟩
    rw [← hslashes, trimSlashes_eq, List.rdropWhile_append_rtakeWhile]
  · exact trimSlashes_eq_self_iff.1 (trimSlashes_trimSlashes p)

/-- There is nothing else that can be left. -/
theorem Trims.eq (h : Trims p t) : t = trimSlashes p := by
  obtain ⟨⟨k, rfl⟩, hlast⟩ := h
  rw [trimSlashes_eq]
  induction k with
  | zero =>
    rw [List.replicate_zero, List.append_nil]
    exact (trimSlashes_eq_self_iff.2 hlast).symm
  | succ k ih =>
    rw [List.replicate_succ', ← List.append_assoc, List.rdropWhile_concat_pos _ _ _ (by simp)]
    exact ih

theorem clean_eq_rooted (p : Bytes) : clean p = rooted (trimSlashes p) := by
  unfold clean rooted
  split
  · rename_i h
    simp [h]
  · rename_i h
    simp [h]

/-- Two spellings have the same written form exactly if they are alike. -/
theorem clean_eq_clean_iff : clean p = clean q ↔ Alike p q := by
  rw [clean_eq_rooted, clean_eq_rooted]
  constructor
  · exact fun h => ⟨_, _, trims_trimSlashes p, trims_trimSlashes q, h⟩
  · rintro ⟨t, u, ht, hu, h⟩
    rwa [← ht.eq, ← hu.eq]

/-- A written form ends in a slash only if it is the root. -/
theorem eq_root_of_getLast?_clean (h : (clean p).getLast? = some slash) : clean p = [slash] := by
  have hlast := (trims_trimSlashes p).2
  rw [clean_eq_rooted] at h ⊢
  generalize trimSlashes p = t at h hlast ⊢
  unfold rooted at h ⊢
  split at h
  · exact absurd h hlast
  · rename_i hhead
    rw [if_neg hhead]
    cases t with
    | nil => rfl
    | cons b l =>
      rw [List.getLast?_cons_cons] at h
      exact absurd h hlast

end Path

/-! ## What a request asks for -/

namespace LineParser

variable {σ : Type} [Source σ] {P : σ → Bytes → Prop} {Q : σ → Prop} {stop : Option IoKind}
  {limits : Limits} {raw : Bytes} {x x' : Reader σ} {r : Request}

/-- A request is taken from a source that stops in some way only if the bytes before the stop
start with a message of the grammar, and it is the request of that message. -/
theorem exists_message_of_supply (hP : Source.IsSupply P Q stop) (hx : x.Holds P raw)
    (h : (LineParser.mk limits).parse x = (.ok r, x')) :
    ∃ (m : Message) (tail : Bytes), m.Fits limits ∧ raw = m.render ++ tail ∧ r = m.request := by
  have hverdict := Agreement.parse_verdict_ofInput limits 0 raw
  have hfollows := parse_follows (p := ⟨limits⟩) hP MemoryStream.isDelivery
    ⟨raw, List.suffix_rfl, hx, Reader.holds_withCapacity 0 (MemoryStream.delivers_ofInput raw)⟩
  rw [h] at hfollows
  generalize (LineParser.mk limits).parse (Reader.withCapacity 0 (MemoryStream.ofInput raw)) = y
    at hfollows hverdict
  generalize (ByteParser.ofLimits limits).feedSlice raw = z at hverdict
  cases hfollows with
  | ok =>
    cases hverdict with
    | complete hm hraw => exact ⟨_, _, hm, hraw, rfl⟩

end LineParser

namespace ByteParser

variable {p p' : ByteParser} {m : Message} {l : Bytes} {n : Nat}

theorem feedPortions_reset (p : ByteParser) (cs : List Bytes) :
    p.reset.feedPortions 0 cs = p.reset.feedSlice cs.flatten := by
  have hs : p.reset.state ≠ .done := by simp [reset]
  rw [feedPortions_eq hs, feedSlice_of_ne_done hs]

/-- A request is completed only behind a head of the grammar, whatever the parser holds. -/
theorem exists_head_of_complete (h : p.reset.feedSlice l = (.ok (.complete, n), p')) :
    ∃ (m : Message) (tail : Bytes), m.HeadFits p.limits ∧ l = m.head ++ tail := by
  by_contra hno
  have hanswer : (p.reset.feedSlice l).1 = ((ofLimits p.limits).feedSlice l).1 := by
    rw [feedSlice_reset, feedSlice_ofLimits]
    refine feedList_holding (place_start p.limits) rfl ?_ 0 _ _
    rintro m hm ⟨tail, htail⟩
    exact hno ⟨m, tail, hm, htail.symm⟩
  rw [h] at hanswer
  obtain ⟨m, tail, hm, rfl, -⟩ := fits_of_complete hanswer.symm
  exact hno ⟨m, m.body ++ tail, hm.toHeadFits, List.append_assoc ..⟩

/-- The completed request has the path of the head. -/
theorem path_of_complete (hm : m.HeadFits p.limits)
    (h : p.reset.feedSlice (m.head ++ l) = (.ok (.complete, n), p')) :
    p'.request.path = Path.clean m.path := by
  rw [feedSlice_reset] at h
  obtain ⟨x, -, hreq⟩ := request_of_feedList_head hm h
  rw [hreq]
  exact (Message.overlays_readHeaders hm.headers_valid _).path

end ByteParser

namespace Request

/-- The request asks for a path, as it was spelled by whoever built it, or sent the bytes that it
was read from. -/
inductive AsksFor : Bytes → Request → Prop where
  /-- It was built with the path. -/
  | built (r : Request) (path : Bytes) : AsksFor path (r.withPath path)
  /-- It was taken from a source that supplies a message with the path and whatever follows. -/
  | taken {limits : Limits} {σ : Type} [Source σ] {P : σ → Bytes → Prop} {Q : σ → Prop}
    {stop : Option IoKind} {x x' : Reader σ} {m : Message} {tail : Bytes} {r : Request} :
    Source.IsSupply P Q stop → m.Fits limits → x.Holds P (m.render ++ tail) →
    (LineParser.mk limits).parse x = (.ok r, x') → AsksFor m.path r
  /-- It was completed by portions that begin with a head with the path. The parser was reset
  before, as a new one is, and one that has handed out its request. -/
  | completed {p p' : ByteParser} {m : Message} {cs : List Bytes} {tail : Bytes} {n : Nat} :
    m.HeadFits p.limits → cs.flatten = m.head ++ tail →
    p.reset.feedPortions 0 cs = (.ok (.complete, n), p') → AsksFor m.path p'.request

variable {path : Bytes} {r : Request}

/-- It has the written form of the path. -/
theorem AsksFor.path_eq (h : AsksFor path r) : r.path = Path.clean path := by
  cases h with
  | built => rfl
  | taken hP hm hx hparse =>
    obtain ⟨m', tail', hm', hraw, rfl⟩ := LineParser.exists_message_of_supply hP hx hparse
    rw [← (Message.render_append_inj hm hm' hraw).2]
    exact (Message.denotes_request hm.headers_valid).path
  | completed hm hcs hfeed =>
    rw [ByteParser.feedPortions_reset, hcs] at hfeed
    exact ByteParser.path_of_complete hm hfeed

/-- Whatever is taken asks for a path. -/
theorem exists_asksFor_of_parse {limits : Limits} {σ : Type} [Source σ] {P : σ → Bytes → Prop}
    {Q : σ → Prop} {stop : Option IoKind} {x x' : Reader σ} {raw : Bytes}
    (hP : Source.IsSupply P Q stop) (hx : x.Holds P raw)
    (h : (LineParser.mk limits).parse x = (.ok r, x')) : ∃ path, AsksFor path r := by
  obtain ⟨m, tail, hm, rfl, -⟩ := LineParser.exists_message_of_supply hP hx h
  exact ⟨m.path, .taken hP hm hx h⟩

/-- Whatever is completed asks for a path. -/
theorem exists_asksFor_of_feedPortions {p p' : ByteParser} {cs : List Bytes} {n : Nat}
    (h : p.reset.feedPortions 0 cs = (.ok (.complete, n), p')) :
    ∃ path, AsksFor path p'.request := by
  obtain ⟨m, tail, hm, hcs⟩ := ByteParser.exists_head_of_complete
    ((ByteParser.feedPortions_reset p cs).symm.trans h)
  exact ⟨m.path, .completed hm hcs h⟩

end Request

/-! ## Handlers are found under every spelling -/

namespace Dispatcher

open HttpServer.Path (Alike clean)
open Request (AsksFor)

variable {d : Dispatcher} {c : Context} {handler : Handler} {p q : Bytes} {method : Method}
  {l₁ l₂ : List Registration} {r : Request}

theorem resolve_eq_found_iff : d.resolve c = .found handler ↔
    c.parseError? = none ∧ d.route? (clean c.request.path) c.request.method = some handler := by
  unfold resolve
  cases c.parseError? with
  | some e => simp
  | none =>
    dsimp only
    split
    · simp [*]
    · split <;> simp [*]

/-- A dispatch runs the handler that is found. -/
theorem mem_calls_dispatch_iff :
    .route c ∈ (d.dispatch c).calls ↔ ∃ handler, d.resolve c = .found handler := by
  obtain ⟨calls, calls', status, c₁, c₂, hres, hpres, hcalls, -⟩ := d.dispatch_concludes c
  have hpage : .route c ∉ calls' := by
    cases hpres <;> simp
  simp only [resolve_eq_found_iff, hcalls, List.mem_append, hpage, or_false]
  cases hres <;> simp [*]

/-- A registration counts for the requests whose path is alike to its own, and only for them. -/
theorem route?_insert (hnew : ∀ r ∈ l₁, ¬r.IsFor p method) (q : Bytes) (m : Method) :
    (Alike p q ∧ m = method → (ofRegistrations (l₁ ++ .route p method handler :: l₂)).route?
      (clean q) m = some handler) ∧
    (¬(Alike p q ∧ m = method) →
      (ofRegistrations (l₁ ++ .route p method handler :: l₂)).route? (clean q) m =
        (ofRegistrations (l₁ ++ l₂)).route? (clean q) m) := by
  simp only [← Path.clean_eq_clean_iff, route?_ofRegistrations, List.findSome?_append,
    List.findSome?_cons]
  constructor
  · rintro ⟨hpath, rfl⟩
    have hnone : l₁.findSome? (·.handlerFor? q m) = none := by
      rw [List.findSome?_eq_none_iff]
      intro r hr
      rw [Registration.handlerFor?_eq_none_iff, Registration.IsFor, ← hpath]
      exact hnew r hr
    rw [hnone, Registration.handlerFor?, if_pos ⟨hpath, rfl⟩]
    rfl
  · intro hother
    rw [Registration.handlerFor?, if_neg fun h => hother ⟨h.1, h.2.symm⟩]

theorem hasRoute_insert (hnew : ∀ r ∈ l₁, ¬r.IsFor p method) (q : Bytes) (m : Method) :
    (ofRegistrations (l₁ ++ .route p method handler :: l₂)).hasRoute q m = true ↔
      Alike p q ∧ m = method ∨ (ofRegistrations (l₁ ++ l₂)).hasRoute q m = true := by
  obtain ⟨hsame, hother⟩ := route?_insert hnew q m
  unfold hasRoute
  by_cases hq : Alike p q ∧ m = method
  · rw [hsame hq]
    exact iff_of_true rfl (.inl hq)
  · rw [hother hq, or_iff_right hq]

/-- For a request that asks for a path, the path in its own written form is looked up. -/
theorem resolve_eq_found_iff_of_asksFor (hq : AsksFor q r) (hc : c.request.path = r.path)
    (he : c.parseError? = none) :
    d.resolve c = .found handler ↔ d.route? (clean q) c.request.method = some handler := by
  rw [resolve_eq_found_iff, hc, hq.path_eq, Path.clean_clean, and_iff_right he]

/-- A written form begins with a slash, ends in one only if it is the root, and is its own written
form, and two spellings have the same one exactly if they are alike. A handler is registered,
unless there was one for the route before, for all spellings that are alike to the one it was
registered under, and for no others : for these its route is known, and it is what a dispatch
finds and runs for a request that asks for one of them; for all others everything is as if it had
not been registered. Every request that a parser accepts asks for a path, and has it in the
written form. -/
theorem found_iff_alike :
    (∀ p, (clean p).head? = some slash ∧ ((clean p).getLast? = some slash → clean p = [slash]) ∧
      clean (clean p) = clean p) ∧
    (∀ p q, clean p = clean q ↔ Alike p q) ∧
    (∀ l₁ l₂ p method handler, (∀ r ∈ l₁, ¬Registration.IsFor p method r) →
      let d := ofRegistrations (l₁ ++ .route p method handler :: l₂)
      let d' := ofRegistrations (l₁ ++ l₂)
      (∀ q m, d.hasRoute q m = true ↔ Alike p q ∧ m = method ∨ d'.hasRoute q m = true) ∧
      ∀ q r (c : Context), AsksFor q r → c.request.path = r.path → c.parseError? = none →
        (Alike p q ∧ c.request.method = method →
          d.resolve c = .found handler ∧ .route c ∈ (d.dispatch c).calls) ∧
        (¬(Alike p q ∧ c.request.method = method) →
          (∀ h, d.resolve c = .found h ↔ d'.resolve c = .found h) ∧
          (.route c ∈ (d.dispatch c).calls ↔ .route c ∈ (d'.dispatch c).calls))) ∧
    (∀ limits (σ : Type) [Source σ] (x x' : Reader σ) r,
      (LineParser.mk limits).parse x = (.ok r, x') → clean r.path = r.path ∧
        ∀ (P : σ → Bytes → Prop) Q stop raw, Source.IsSupply P Q stop → x.Holds P raw →
          ∃ q, AsksFor q r) ∧
    (∀ (p : ByteParser) cs n p', p.reset.feedPortions 0 cs = (.ok (.complete, n), p') →
      clean p'.request.path = p'.request.path ∧ ∃ q, AsksFor q p'.request) := by
  refine ⟨fun p => ⟨Path.head?_clean p, Path.eq_root_of_getLast?_clean, Path.clean_clean p⟩,
    fun p q => Path.clean_eq_clean_iff, fun l₁ l₂ p method handler hnew => ?_,
    fun limits σ _ x x' r h => ?_, fun p cs n p' h => ?_⟩
  · intro d d'
    refine ⟨hasRoute_insert hnew, fun q r c hq hc he => ?_⟩
    obtain ⟨hsame, hother⟩ := route?_insert hnew q c.request.method
    refine ⟨fun h => ?_, fun h => ?_⟩
    · have hfound : d.resolve c = .found handler :=
        (resolve_eq_found_iff_of_asksFor hq hc he).2 (hsame h)
      exact ⟨hfound, mem_calls_dispatch_iff.2 ⟨handler, hfound⟩⟩
    · have hfound (h') : d.resolve c = .found h' ↔ d'.resolve c = .found h' := by
        rw [resolve_eq_found_iff_of_asksFor hq hc he, resolve_eq_found_iff_of_asksFor hq hc he,
          hother h]
      exact ⟨hfound, by simp only [mem_calls_dispatch_iff, hfound]⟩
  · obtain ⟨m, hm, rfl⟩ := LineParser.exists_message_of_parse h
    exact ⟨hm.wellFormed.path_clean, fun P Q stop raw hP hx =>
      Request.exists_asksFor_of_parse hP hx h⟩
  · obtain ⟨q, hq⟩ := Request.exists_asksFor_of_feedPortions h
    exact ⟨by rw [hq.path_eq, Path.clean_clean], q, hq⟩

/-- A message that spells its path with a slash at the end. -/
def slashed : Message := { method := .get, path := utf8 "/api/", headers := [], body := [] }

/-- The message in two portions, and the start of another one. -/
def slashedPortions : List Bytes := [utf8 "GET /api", utf8 "/ HTTP/1.1\r\n\r\nGET"]

/-- Its request finds the handler that was registered without a slash at the front. -/
theorem found_iff_alike_slashed :
    ∃ p, (ByteParser.ofLimits {}).feedPortions 0 slashedPortions =
        (.ok (.complete, slashed.render.length), p) ∧
      let c : Context := { request := p.request, stream := .memory {} }
      (ofRegistrations [.route (utf8 "api//") .get (.page .ok)]).resolve c =
        .found (.page .ok) := by
  have hfits : slashed.Fits {} :=
    ⟨⟨by decide, ⟨rfl, List.all_eq_true.1 (by decide)⟩, by simp [slashed], by decide,
      by simp [slashed]⟩, by decide, by decide⟩
  obtain ⟨p, hslice, hreq⟩ := ByteParser.feedSlice_render hfits (utf8 "GET")
  have hfeed : (ByteParser.ofLimits {}).reset.feedPortions 0 slashedPortions =
      (.ok (.complete, slashed.render.length), p) := by
    have hcs : slashedPortions.flatten = slashed.render ++ utf8 "GET" := by decide
    rw [ByteParser.feedPortions_reset, hcs]
    exact hslice
  have hmethod : p.request.method = .get := by rw [hreq]; rfl
  have hasks : AsksFor slashed.path p.request :=
    .completed hfits.toHeadFits (by decide : _ = slashed.head ++ utf8 "GET") hfeed
  have halike := (found_iff_alike.2.1 (utf8 "api//") slashed.path).1 (by decide)
  have hfound := (found_iff_alike.2.2.1 [] [] (utf8 "api//") .get (.page .ok) (by simp)).2 _ _
    { request := p.request, stream := .memory {} } hasks rfl rfl
  exact ⟨p, hfeed, (hfound.1 ⟨halike, hmethod⟩).1⟩

end Dispatcher

end HttpServer
