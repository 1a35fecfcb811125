import HttpServer.Handler

/-!
# Dispatchers

A dispatcher knows a handler for each route, a path together with a method, and a page for
each status that has one. `dispatch` answers a context : it runs the handler of its route,
runs the page of the status if that is not 200, writes the response and closes the
connection. Whatever a handler does, the exchange comes to its end.

Paths are compared in their written form. Of two handlers for one route the first stays, of
two pages for one status the last.
-/

namespace HttpServer

/-- A handler for a path and a method. -/
structure Route where
  /-- The path in its written form. -/
  path : Bytes
  /-- The method. -/
  method : Method
  /-- The handler. -/
  handler : Handler

/-- Routes and pages. -/
structure Dispatcher where
  /-- The routes, in the order of their registration. -/
  routes : List Route := []
  /-- The pages, the latest first. -/
  pages : List (Status × Handler) := []

namespace Dispatcher

/-! ## Registration -/

/-- The handler of a route given by a path in its written form. -/
def route? (d : Dispatcher) (path : Bytes) (method : Method) : Option Handler :=
  (d.routes.find? fun r => r.path = path ∧ r.method = method).map (·.handler)

/-- Some route has the path, given in its written form. -/
def hasPath (d : Dispatcher) (path : Bytes) : Bool := d.routes.any fun r => r.path = path

/-- A handler is registered for the path and the method. -/
def hasRoute (d : Dispatcher) (path : Bytes) (method : Method) : Bool :=
  (d.route? (Path.clean path) method).isSome

/-- The page of a status. -/
def page? (d : Dispatcher) (s : Status) : Option Handler := d.pages.lookup s

/-- The method and the path of a route in messages. -/
def routeText (path : Bytes) (method : Method) : String :=
  s!"'{method.text} {Text.decode path}'"

/-- What comes of a registration. -/
structure Registered where
  /-- The dispatcher afterwards. -/
  dispatcher : Dispatcher
  /-- The registration took effect. -/
  accepted : Bool
  /-- What was said. -/
  log : List LogLine

/-- Registers a handler for a route, unless it has one. -/
def register (d : Dispatcher) (path : Bytes) (method : Method) (handler : Handler) :
    Registered :=
  let path := Path.clean path
  let text := routeText path method
  if (d.route? path method).isSome then
    { dispatcher := d, accepted := false
      log := [{ level := .warn, message := s!"Handler for {text} already registered" }] }
  else
    { dispatcher := { d with routes := d.routes ++ [{ path, method, handler }] }
      accepted := true
      log := [{ level := .debug, message := s!"Registered handler for {text}" }] }

/-- Registers the handlers of routes, one after the other. -/
def registerAll (d : Dispatcher) : List Route → Registered
  | [] => { dispatcher := d, accepted := true, log := [] }
  | r :: l =>
    let first := d.register r.path r.method r.handler
    let rest := first.dispatcher.registerAll l
    { rest with accepted := first.accepted && rest.accepted, log := first.log ++ rest.log }

/-- What is said about a status that had a page before. -/
def replacedPage (s : Status) : LogLine :=
  { level := .warn
    message :=
      s!"Handler for status code {s.code} is already registered, replacing it with the new one" }

/-- Registers a page for a status, in the place of an earlier one. -/
def registerPage (d : Dispatcher) (s : Status) (handler : Handler) : Registered :=
  { dispatcher := { d with pages := (s, handler) :: d.pages }
    accepted := true
    log := if (d.page? s).isSome then [replacedPage s] else [] }

/-- Registers pages, one after the other. -/
def registerPages (d : Dispatcher) : List (Status × Handler) → Registered
  | [] => { dispatcher := d, accepted := true, log := [] }
  | (s, handler) :: l =>
    let first := d.registerPage s handler
    let rest := first.dispatcher.registerPages l
    { rest with log := first.log ++ rest.log }

/-- Registers the pages that say nothing but a status. -/
def registerDefaults (d : Dispatcher) : Registered :=
  d.registerPages (Handler.defaultPages.map fun s => (s, Handler.page s))

/-! ## Dispatching -/

/-- What a dispatcher has for a context. -/
inductive Resolution where
  /-- The request was rejected before. -/
  | rejected (e : ParseError)
  /-- The route has a handler. -/
  | found (handler : Handler)
  /-- The path has routes, but none for the method. -/
  | methodUnknown
  /-- The path has no routes. -/
  | pathUnknown

/-- What the dispatcher has for a context. -/
def resolve (d : Dispatcher) (c : Context) : Resolution :=
  let path := Path.clean c.request.path
  match c.parseError? with
  | some e => .rejected e
  | none =>
    match d.route? path c.request.method with
    | some handler => .found handler
    | none => if d.hasPath path then .methodUnknown else .pathUnknown

/-- A run of a handler, with the context it was given. -/
inductive Call where
  /-- The handler of a route. -/
  | route (context : Context)
  /-- The page of a status. -/
  | page (status : Status) (context : Context)
deriving DecidableEq

/-- An exchange part of the way through. -/
structure Stage where
  /-- The context. -/
  context : Context
  /-- The status of the exchange. -/
  status : Status
  /-- What was said. -/
  log : List LogLine := []
  /-- What handlers said to the listeners of the program. -/
  events : List Event := []
  /-- The handlers that were run. -/
  calls : List Call := []

/-- Runs a handler. One that fails or panics counts as an error of the server. -/
def invoke (handler : Handler) (path : String) (c : Context) : Stage :=
  let h := handler.run c
  match h.outcome with
  | .done status => { context := h.context, status, events := h.events }
  | .failed e =>
    { context := h.context, status := .internalServerError, events := h.events
      log := [{ level := .error
                message := s!"Error occurred when handling request {path}: {e.text}" }] }
  | .panicked payload? =>
    let text := panicText payload?
    { context := h.context, status := .internalServerError, events := h.events
      log := [{ level := .error
                message := s!"Handler panicked when handling request {path}: {text}" }] }

/-- Finds the status of the exchange, by the handler of its route if it has one. -/
def answer (d : Dispatcher) (path : String) (c : Context) : Stage :=
  let missing := s!"No handler found for {routeText (Path.clean c.request.path) c.request.method}"
  match d.resolve c with
  | .rejected e =>
    { context := c, status := .badRequest
      log := [{ level := .warn, message := s!"Rejecting malformed request: {e.message}" }] }
  | .found handler => { invoke handler path c with calls := [.route c] }
  | .methodUnknown =>
    { context := c, status := .methodNotAllowed
      log := [{ level := .warn, message := missing }] }
  | .pathUnknown =>
    { context := c, status := .notFound
      log := [{ level := .warn, message := missing }] }

/-- Runs the page of a status that is not 200. What the page ends with changes nothing. -/
def present (d : Dispatcher) (path : String) (s : Stage) : Stage :=
  if s.status.isOk then s
  else
    let text := s.status.text
    let c := { s.context with response := s.context.response.withStatus s.status }
    let log := s.log ++
      [{ level := .debug, message := s!"Error occurred when handling request {path}: {text}" }]
    match d.page? s.status with
    | some handler =>
      let t := invoke handler path c
      { s with
        context := t.context
        log := log ++ t.log
        events := s.events ++ t.events
        calls := s.calls ++ [.page s.status c] }
    | none =>
      { s with
        context := c
        log := log ++ [{ level := .warn, message := s!"No error handler for {text}" }] }

/-- Writes the response and closes the connection. -/
def conclude (path : String) (s : Stage) : Stage :=
  match s.context.writeResponse with
  | (x, c) =>
    let failure := match x with
      | .ok () => []
      | .error e =>
        [{ level := .debug, message := s!"Failed to write response for {path}: {e.text}" }]
    { s with
      context := c.close
      log := s.log ++ failure ++ [{ level := .debug, message := s!"Request '{path}' handled" }] }

/-- Answers a context. -/
def dispatch (d : Dispatcher) (c : Context) : Stage :=
  let path := Text.decode (Path.clean c.request.path)
  let s := d.answer path c
  let first : LogLine := { level := .debug, message := s!"Dispatching request {path}" }
  conclude path (d.present path { s with log := first :: s.log })

end Dispatcher

end HttpServer
