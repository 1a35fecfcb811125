import HttpServer.Dispatcher
import HttpServer.Proofs.Closing

/-!
# Answering a context

A dispatcher answers a context in three steps. It finds the status of the exchange, by the
handler of the route if there is one (`Dispatcher.Resolved`); it runs the page of a status
that is not 200 (`Dispatcher.Presented`); and it writes the response and closes the stream.

Handlers may do to the stream what the library lets them do, in any order and however they
end, so what is known of a stream after a handler is what writing, flushing and closing keep
(`Sink.IsKept`, `Handling.kept_run`). It is enough to know how the last step ends : the response
that the handlers left arrives as a whole if the stream is still open, nothing arrives if it is
closed, and the stream is closed in any case (`Dispatcher.dispatch_concludes`).
-/

namespace HttpServer

/-! ## Writing a response -/

namespace Context

variable {c : Context}

/-- A front part of the response arrives, whatever the stream does. -/
theorem output_writeResponse (c : Context) : ∃ t, t <+: c.response.render ∧
    c.writeResponse.2.stream.output = c.stream.output ++ t := by
  have hpass := Response.passes_send c.response (Writer.ofSink c.stream)
  have htaken : (Writer.ofSink c.stream).taken = c.stream.output := List.append_nil _
  obtain ⟨t, ht⟩ := hpass.prefix_accepted
  have hle := hpass.accepted_prefix
  rw [htaken, ← ht] at hle
  exact ⟨t, (List.prefix_append_right_inj _).1 hle, ht.symm⟩

/-- Where writes succeed while the stream is open, all of the response arrives if it is open, and
nothing if it is closed. -/
theorem output_writeResponse_of_writes (h : c.stream.WritesWhileOpen) :
    c.writeResponse.2.stream.output =
      c.stream.output ++ if c.isClosed then [] else c.response.render := by
  by_cases hc : c.isClosed = true
  · rw [if_pos hc, List.append_nil]
    exact (Response.kept_send (Stream.isKept_closed c.stream.output) c.response
      (w := Writer.ofSink c.stream) ⟨h, hc, rfl⟩).2.2
  · have hok := Response.send_ok (r := c.response) (w := Writer.ofSink c.stream)
      Stream.isReliable_of_open ⟨h, eq_false_of_ne_true hc⟩
    have htaken : (Writer.ofSink c.stream).taken = c.stream.output := List.append_nil _
    rw [if_neg hc, ← htaken]
    exact Response.accepted_of_send_ok hok

end Context

/-- A program keeps of the stream what writing, flushing and closing keep. -/
theorem Handling.kept_run {α : Type} {I : Stream → Prop} (hI : Sink.IsKept I)
    (hclose : ∀ s, I s → I s.close) (h : Handling α) {c : Context} (hc : I c.stream) :
    I (h.run c).context.stream := by
  induction h generalizing c with
  | done | fail | panic => exact hc
  | look _ ih => exact ih c hc
  | put _ _ _ ih => exact ih hc
  | write _ ih => exact ih _ (Response.kept_send hI c.response hc)
  | close _ ih => exact ih (hclose _ hc)
  | say _ _ ih => exact ih hc

/-! ## The steps of an answer -/

/-- The status that the end of a handler stands for. -/
def Outcome.status : Outcome Status → Status
  | .done s => s
  | .failed _ | .panicked _ => .internalServerError

namespace Dispatcher

variable {d : Dispatcher} {c c' : Context} {status : Status} {calls : List Call} {path : String}

/-- How the status of the exchange is found : the handlers that are run, the status, and the
context that is left. -/
inductive Resolved (d : Dispatcher) (c : Context) : List Call → Status → Context → Prop where
  /-- The request was rejected before. -/
  | rejected {e : ParseError} : c.parseError? = some e → Resolved d c [] .badRequest c
  /-- The path has routes, but none for the method. -/
  | methodUnknown : c.parseError? = none →
    d.route? (Path.clean c.request.path) c.request.method = none →
    d.hasPath (Path.clean c.request.path) = true → Resolved d c [] .methodNotAllowed c
  /-- The path has no routes. -/
  | pathUnknown : c.parseError? = none →
    d.route? (Path.clean c.request.path) c.request.method = none →
    d.hasPath (Path.clean c.request.path) = false → Resolved d c [] .notFound c
  /-- The handler of the route is run. -/
  | handled {handler : Handler} : c.parseError? = none →
    d.route? (Path.clean c.request.path) c.request.method = some handler →
    Resolved d c [.route c] (handler.run c).outcome.status (handler.run c).context

/-- How a status is presented : the handlers that are run, and the context that is left. How a
page ends does not matter. -/
inductive Presented (d : Dispatcher) (status : Status) (c : Context) :
    List Call → Context → Prop where
  /-- The exchange went well. -/
  | ok : status.code = 200 → Presented d status c [] c
  /-- The status has no page. -/
  | bare : status.code ≠ 200 → d.page? status = none →
    Presented d status c [] { c with response.status := status }
  /-- The page of the status is run when the response has that status. -/
  | page {handler : Handler} : status.code ≠ 200 → d.page? status = some handler →
    Presented d status c [.page status { c with response.status := status }]
      (handler.run { c with response.status := status }).context

theorem Resolved.kept {I : Stream → Prop} (hI : Sink.IsKept I) (hclose : ∀ s, I s → I s.close)
    (h : Resolved d c calls status c') (hc : I c.stream) : I c'.stream := by
  cases h with
  | rejected | methodUnknown | pathUnknown => exact hc
  | handled => exact Handling.kept_run hI hclose _ hc

theorem Presented.kept {I : Stream → Prop} (hI : Sink.IsKept I) (hclose : ∀ s, I s → I s.close)
    (h : Presented d status c calls c') (hc : I c.stream) : I c'.stream := by
  cases h with
  | ok | bare => exact hc
  | page => exact Handling.kept_run hI hclose _ hc

/-- A handler that fails or panics is caught, with what it did to the context. -/
theorem invoke_eq (handler : Handler) (path : String) (c : Context) :
    (invoke handler path c).context = (handler.run c).context ∧
      (invoke handler path c).status = (handler.run c).outcome.status ∧
      (invoke handler path c).calls = [] := by
  unfold invoke
  dsimp only
  split <;> simp [Outcome.status, *]

theorem resolved_answer (d : Dispatcher) (path : String) (c : Context) :
    Resolved d c (d.answer path c).calls (d.answer path c).status (d.answer path c).context := by
  unfold answer resolve
  cases he : c.parseError? with
  | some e => exact .rejected he
  | none =>
    dsimp only
    cases hr : d.route? (Path.clean c.request.path) c.request.method with
    | some handler =>
      obtain ⟨hcontext, hstatus, -⟩ := invoke_eq handler path c
      dsimp only
      rw [hcontext, hstatus]
      exact .handled he hr
    | none =>
      cases hp : d.hasPath (Path.clean c.request.path) with
      | true => exact .methodUnknown he hr hp
      | false => exact .pathUnknown he hr hp

theorem presented_present (d : Dispatcher) (path : String) (s : Stage) :
    (d.present path s).status = s.status ∧ ∃ calls, (d.present path s).calls = s.calls ++ calls ∧
      Presented d s.status s.context calls (d.present path s).context := by
  unfold present
  split
  · rename_i hok
    exact ⟨rfl, [], (List.append_nil _).symm, .ok (by simpa [Status.isOk] using hok)⟩
  · rename_i hok
    have hcode : s.status.code ≠ 200 := by simpa [Status.isOk] using hok
    cases hp : d.page? s.status with
    | none => exact ⟨rfl, [], (List.append_nil _).symm, .bare hcode hp⟩
    | some handler =>
      refine ⟨rfl, _, rfl, ?_⟩
      dsimp only
      rw [(invoke_eq handler path _).1]
      exact .page hcode hp

theorem dispatch_eq (d : Dispatcher) (c : Context) : ∃ path log,
    d.dispatch c = conclude path (d.present path { d.answer path c with log }) :=
  ⟨_, _, rfl⟩

/-- A dispatch comes to its end, whatever handlers do. At most one handler of a route is run,
and after it at most one page, and only for a status that is not 200; the status of the exchange
does not depend on how the page ends. Then a front part of the response that the handlers left
is written, and the stream is closed. If writes succeed while the stream is open, that part is
all of the response if the handlers left the stream open, and nothing if they closed it. -/
theorem dispatch_concludes (d : Dispatcher) (c : Context) :
    ∃ calls calls' status c₁ c₂, Resolved d c calls status c₁ ∧
      Presented d status c₁ calls' c₂ ∧ (d.dispatch c).calls = calls ++ calls' ∧
      (d.dispatch c).status = status ∧ (d.dispatch c).context.response = c₂.response ∧
      (d.dispatch c).context.isClosed = true ∧
      (∃ t, t <+: c₂.response.render ∧
        (d.dispatch c).context.stream.output = c₂.stream.output ++ t) ∧
      (c.stream.WritesWhileOpen → (d.dispatch c).context.stream.output =
        c₂.stream.output ++ if c₂.isClosed then [] else c₂.response.render) := by
  obtain ⟨path, log, hdispatch⟩ := d.dispatch_eq c
  have hresolved := d.resolved_answer path c
  obtain ⟨hstatus, calls', hcalls, hpresented⟩ :=
    d.presented_present path { d.answer path c with log }
  rw [hdispatch]
  refine ⟨_, calls', _, _, _, hresolved, hpresented, hcalls, hstatus, rfl,
    Stream.isClosed_close _, ?_, fun h => ?_⟩
  · obtain ⟨t, ht, hout⟩ := Context.output_writeResponse _
    exact ⟨t, ht, (Stream.output_close _).trans hout⟩
  · have hkept := Stream.isKept_writesWhileOpen
    have hclose : ∀ s : Stream, s.WritesWhileOpen → s.close.WritesWhileOpen := fun _ h => h.close
    have hwrites := hpresented.kept hkept hclose (hresolved.kept hkept hclose h)
    exact (Stream.output_close _).trans (Context.output_writeResponse_of_writes hwrites)

/-- A dispatcher with a handler that panics when it has changed the response, and a page that
changes it again and fails. -/
def brittle : Dispatcher where
  routes :=
    [{ path := utf8 "/", method := .get
       handler := Handling.respond (·.withText "half") >>= fun _ => .panic none }]
  pages :=
    [(.internalServerError, Handling.respond (·.withText "later") >>= fun _ => .fail .json)]

/-- The response that the page left arrives with the status of the panic. -/
theorem dispatch_concludes_brittle :
    let c : Context := { request := { method := .get, path := utf8 "/" }, stream := .memory {} }
    (brittle.dispatch c).status = .internalServerError ∧
      (brittle.dispatch c).calls.length = 2 ∧
      (brittle.dispatch c).context.stream.output =
        (Response.withText { ({} : Response).withText "half" with status := .internalServerError }
          "later").render ∧
      (brittle.dispatch c).context.isClosed = true := by
  intro c
  obtain ⟨calls, calls', status, c₁, c₂, hres, hpres, hcalls, hstatus, -, hclosed, -, hout⟩ :=
    dispatch_concludes brittle c
  have hout := hout trivial
  rw [hstatus, hcalls, hout]
  cases hres with
  | rejected he => cases he
  | methodUnknown _ hr => cases hr
  | pathUnknown _ hr => cases hr
  | handled _ hr =>
    cases hr
    cases hpres with
    | ok h200 => cases h200
    | bare _ hp => cases hp
    | page _ hp =>
      cases hp
      exact ⟨rfl, rfl, rfl, hclosed⟩

end Dispatcher

end HttpServer
