import HttpServer.Proofs.Dispatching
import Mathlib.Data.List.Induction
import Mathlib.Logic.Basic

/-!
# What registrations lead to

A dispatcher is made by registrations, one after the other. `Dispatcher.ofRegistrations` is
what a history of them leads to, and what it holds can be read off the history : the handler
of a route is that of its first registration (`Dispatcher.route?_eq_some_iff`), a path is
known if any registration used it (`Dispatcher.hasPath_ofRegistrations`), and the page of a
status is the one that was registered last (`Dispatcher.page?_eq_some_iff`). Two paths
count as the same if their written forms agree.

So the exchange that a dispatcher concludes is settled by the history alone
(`Dispatcher.dispatch_ofRegistrations`). A registration that is refused leaves no trace in it.
-/

namespace HttpServer.Dispatcher

/-- A registration. -/
inductive Registration where
  /-- A handler for a route. -/
  | route (path : Bytes) (method : Method) (handler : Handler)
  /-- A page for a status. -/
  | page (status : Status) (handler : Handler)
  /-- The pages that say nothing but a status. -/
  | defaults

namespace Registration

/-- What comes of the registration. -/
def enter (d : Dispatcher) : Registration → Registered
  | route path method handler => d.register path method handler
  | page status handler => d.registerPage status handler
  | defaults => d.registerDefaults

/-- The handler that is registered for the path and the method. -/
def handlerFor? (path : Bytes) (method : Method) : Registration → Option Handler
  | route p m handler =>
    if Path.clean p = Path.clean path ∧ m = method then some handler else none
  | _ => none

/-- The pages that are registered, in this order. -/
def pages : Registration → List (Status × Handler)
  | route .. => []
  | page status handler => [(status, handler)]
  | defaults => Handler.defaultPages.map fun s => (s, Handler.page s)

/-- It registers a handler for the path and the method. -/
def IsFor (path : Bytes) (method : Method) (r : Registration) : Prop :=
  ∃ p handler, r = route p method handler ∧ Path.clean p = Path.clean path

/-- It registers a handler for the path and some method. -/
def Uses (path : Bytes) (r : Registration) : Prop := ∃ method, r.IsFor path method

variable {path : Bytes} {method : Method} {handler : Handler} {r : Registration}

theorem handlerFor?_eq_some_iff : r.handlerFor? path method = some handler ↔
    ∃ p, r = route p method handler ∧ Path.clean p = Path.clean path := by
  cases r with
  | route p m h =>
    simp only [handlerFor?, Option.ite_none_right_eq_some, Option.some.injEq, route.injEq]
    constructor
    · rintro ⟨⟨hp, rfl⟩, rfl⟩
      exact ⟨p, ⟨rfl, rfl, rfl⟩, hp⟩
    · rintro ⟨_, ⟨rfl, rfl, rfl⟩, hp⟩
      exact ⟨⟨hp, rfl⟩, rfl⟩
  | page | defaults => simp [handlerFor?]

theorem isSome_handlerFor?_iff : (r.handlerFor? path method).isSome ↔ r.IsFor path method := by
  rw [Option.isSome_iff_exists]
  simp only [handlerFor?_eq_some_iff]
  exact exists_comm

theorem handlerFor?_eq_none_iff : r.handlerFor? path method = none ↔ ¬r.IsFor path method := by
  rw [← isSome_handlerFor?_iff, Option.not_isSome_iff_eq_none]

end Registration

/-- The dispatcher after registrations, one after the other. -/
def ofRegistrations (l : List Registration) : Dispatcher :=
  l.foldl (fun d r => (r.enter d).dispatcher) {}

theorem ofRegistrations_append (l l' : List Registration) :
    ofRegistrations (l ++ l') = l'.foldl (fun d r => (r.enter d).dispatcher) (ofRegistrations l) :=
  List.foldl_append

theorem ofRegistrations_concat (l : List Registration) (r : Registration) :
    ofRegistrations (l ++ [r]) = (r.enter (ofRegistrations l)).dispatcher :=
  ofRegistrations_append l [r]

/-! ## One registration -/

section Enter

variable {d : Dispatcher} {path p : Bytes} {method m : Method} {handler : Handler}

theorem accepted_register : (d.register p m handler).accepted = true ↔
    d.route? (Path.clean p) m = none := by
  unfold register
  dsimp only
  split
  · rename_i h
    exact iff_of_false (by simp) (Option.isSome_iff_ne_none.1 h)
  · rename_i h
    exact iff_of_true rfl (Option.not_isSome_iff_eq_none.1 h)

/-- A registration that is refused changes nothing. -/
theorem register_refused (h : (d.register p m handler).accepted = false) :
    (d.register p m handler).dispatcher = d := by
  unfold register at h ⊢
  dsimp only at h ⊢
  split
  · rfl
  · rw [if_neg ‹_›] at h
    contradiction

theorem register_accepted (h : (d.register p m handler).accepted = true) :
    (d.register p m handler).dispatcher =
      { d with routes := d.routes ++ [{ path := Path.clean p, method := m, handler }] } := by
  have hnew := accepted_register.1 h
  simp [register, hnew]

theorem registerPages_eq (d : Dispatcher) (l : List (Status × Handler)) :
    (d.registerPages l).dispatcher = { d with pages := l.reverse ++ d.pages } := by
  induction l generalizing d with
  | nil => rfl
  | cons e l ih => simp [registerPages, ih, registerPage]

theorem hasPath_of_route? (h : d.route? path method ≠ none) : d.hasPath path = true := by
  obtain ⟨_, hroute⟩ := Option.ne_none_iff_exists'.1 h
  obtain ⟨r, hfind, -⟩ := Option.map_eq_some_iff.1 hroute
  have hr : r.path = path ∧ r.method = method := by simpa using List.find?_some hfind
  exact List.any_eq_true.2 ⟨r, List.mem_of_find?_eq_some hfind, decide_eq_true hr.1⟩

/-- A route keeps the handler that it has. -/
theorem route?_enter (d : Dispatcher) (r : Registration) (path : Bytes) (method : Method) :
    (r.enter d).dispatcher.route? (Path.clean path) method =
      (d.route? (Path.clean path) method).or (r.handlerFor? path method) := by
  cases r with
  | page => exact Option.or_none.symm
  | defaults =>
    rw [Registration.enter, registerDefaults, registerPages_eq]
    exact Option.or_none.symm
  | route p m handler =>
    change (d.register p m handler).dispatcher.route? _ _ = _
    cases haccepted : (d.register p m handler).accepted with
    | true =>
      rw [register_accepted haccepted, route?, List.find?_append, Option.map_or, ← route?]
      congr 1
      simp only [Registration.handlerFor?]
      split <;> simp_all
    | false =>
      rw [register_refused haccepted]
      have hold := mt accepted_register.2 (Bool.not_eq_true _ ▸ haccepted)
      by_cases hroute : Path.clean p = Path.clean path ∧ m = method
      · obtain ⟨hp, rfl⟩ := hroute
        obtain ⟨old, hold⟩ := Option.ne_none_iff_exists'.1 (hp ▸ hold)
        rw [hold]
        rfl
      · rw [Registration.handlerFor?, if_neg hroute, Option.or_none]

theorem hasPath_enter (d : Dispatcher) (r : Registration) (path : Bytes) :
    (r.enter d).dispatcher.hasPath (Path.clean path) = true ↔
      d.hasPath (Path.clean path) = true ∨ r.Uses path := by
  cases r with
  | page => simp [Registration.enter, registerPage, hasPath, Registration.Uses, Registration.IsFor]
  | defaults =>
    rw [Registration.enter, registerDefaults, registerPages_eq]
    simp [hasPath, Registration.Uses, Registration.IsFor]
  | route p m handler =>
    have huses : (Registration.route p m handler).Uses path ↔ Path.clean p = Path.clean path := by
      simp [Registration.Uses, Registration.IsFor]
    rw [huses]
    change (d.register p m handler).dispatcher.hasPath _ = _ ↔ _
    cases haccepted : (d.register p m handler).accepted with
    | true => simp [register_accepted haccepted, hasPath]
    | false =>
      rw [register_refused haccepted]
      have hold := mt accepted_register.2 (Bool.not_eq_true _ ▸ haccepted)
      exact (or_iff_left_of_imp fun hp => hp ▸ hasPath_of_route? hold).symm

/-- A page takes the place of an earlier one. -/
theorem pages_enter (d : Dispatcher) (r : Registration) :
    (r.enter d).dispatcher.pages = r.pages.reverse ++ d.pages := by
  cases r with
  | page => rfl
  | defaults => rw [Registration.enter, registerDefaults, registerPages_eq, Registration.pages]
  | route p m handler =>
    change (d.register p m handler).dispatcher.pages = _
    cases haccepted : (d.register p m handler).accepted with
    | true =>
      rw [register_accepted haccepted]
      rfl
    | false =>
      rw [register_refused haccepted]
      rfl

end Enter

/-! ## A history of registrations -/

section History

variable {l : List Registration} {path : Bytes} {method : Method} {handler : Handler}
  {status : Status}

theorem route?_ofRegistrations (l : List Registration) (path : Bytes) (method : Method) :
    (ofRegistrations l).route? (Path.clean path) method =
      l.findSome? (·.handlerFor? path method) := by
  induction l using List.reverseRecOn with
  | nil => rfl
  | append_singleton l r ih =>
    rw [ofRegistrations_concat, route?_enter, ih, List.findSome?_append, List.findSome?_singleton]

theorem hasPath_ofRegistrations (l : List Registration) (path : Bytes) :
    (ofRegistrations l).hasPath (Path.clean path) = true ↔ ∃ r ∈ l, r.Uses path := by
  induction l using List.reverseRecOn with
  | nil => simp [ofRegistrations, hasPath]
  | append_singleton l r ih =>
    rw [ofRegistrations_concat, hasPath_enter, ih]
    simp [or_and_right, exists_or]

theorem pages_ofRegistrations (l : List Registration) :
    (ofRegistrations l).pages = (l.flatMap (·.pages)).reverse := by
  induction l using List.reverseRecOn with
  | nil => rfl
  | append_singleton l r ih =>
    rw [ofRegistrations_concat, pages_enter, ih, List.flatMap_append, List.flatMap_singleton,
      List.reverse_append]

/-- The handler of the first registration for the path and the method, which is accepted. -/
def IsFirst (l : List Registration) (path : Bytes) (method : Method) (handler : Handler) : Prop :=
  ∃ l₁ p l₂, l = l₁ ++ .route p method handler :: l₂ ∧ Path.clean p = Path.clean path ∧
    ((ofRegistrations l₁).register p method handler).accepted = true ∧
    ∀ r ∈ l₁, ¬r.IsFor path method

/-- The page that was registered last for the status. -/
def IsLast (l : List Registration) (status : Status) (handler : Handler) : Prop :=
  ∃ pages₁ pages₂, l.flatMap (·.pages) = pages₁ ++ (status, handler) :: pages₂ ∧
    ∀ e ∈ pages₂, e.1 ≠ status

theorem route?_eq_none_iff : (ofRegistrations l).route? (Path.clean path) method = none ↔
    ∀ r ∈ l, ¬r.IsFor path method := by
  simp [route?_ofRegistrations, Registration.handlerFor?_eq_none_iff]

/-- Of several handlers for a route the first stays. -/
theorem route?_eq_some_iff : (ofRegistrations l).route? (Path.clean path) method = some handler ↔
    IsFirst l path method handler := by
  rw [route?_ofRegistrations, List.findSome?_eq_some_iff]
  constructor
  · rintro ⟨l₁, r, l₂, rfl, hr, hbefore⟩
    obtain ⟨p, rfl, hp⟩ := Registration.handlerFor?_eq_some_iff.1 hr
    have hnone : ∀ r ∈ l₁, ¬r.IsFor path method := fun r hr =>
      Registration.handlerFor?_eq_none_iff.1 (hbefore r hr)
    refine ⟨l₁, p, l₂, rfl, hp, accepted_register.2 ?_, hnone⟩
    rw [hp]
    exact route?_eq_none_iff.2 hnone
  · rintro ⟨l₁, p, l₂, rfl, hp, -, hnone⟩
    exact ⟨l₁, _, l₂, rfl, Registration.handlerFor?_eq_some_iff.2 ⟨p, rfl, hp⟩, fun r hr =>
      Registration.handlerFor?_eq_none_iff.2 (hnone r hr)⟩

/-- Of several pages for a status the last stays. -/
theorem page?_eq_some_iff : (ofRegistrations l).page? status = some handler ↔
    IsLast l status handler := by
  rw [page?, pages_ofRegistrations, List.lookup_eq_some_iff]
  constructor
  · rintro ⟨after, before, hsplit, hafter⟩
    refine ⟨before.reverse, after.reverse, by simpa using List.reverse_eq_iff.1 hsplit, ?_⟩
    exact fun e he => (bne_iff_ne.1 (hafter e (List.mem_reverse.1 he))).symm
  · rintro ⟨before, after, hsplit, hafter⟩
    refine ⟨after.reverse, before.reverse, by simp [hsplit], ?_⟩
    exact fun e he => bne_iff_ne.2 (hafter e (List.mem_reverse.1 he)).symm

theorem page?_eq_none_iff : (ofRegistrations l).page? status = none ↔
    ∀ e ∈ l.flatMap (·.pages), e.1 ≠ status := by
  rw [page?, pages_ofRegistrations, List.lookup_eq_none_iff]
  simp only [List.mem_reverse, bne_iff_ne]
  exact forall₂_congr fun _ _ => ne_comm

theorem hasRoute_ofRegistrations :
    (ofRegistrations l).hasRoute path method = true ↔ ∃ r ∈ l, r.IsFor path method := by
  rw [hasRoute, Option.isSome_iff_ne_none, ne_eq, route?_eq_none_iff]
  push Not
  rfl

theorem refused_ofRegistrations :
    ((ofRegistrations l).register path method handler).accepted = false ↔
      ∃ r ∈ l, r.IsFor path method := by
  rw [← Bool.not_eq_true, accepted_register, route?_eq_none_iff]
  push Not
  rfl

/-- A registration that is refused might as well not have been tried. -/
theorem ofRegistrations_refused
    (h : ((ofRegistrations l).register path method handler).accepted = false)
    (l' : List Registration) :
    ofRegistrations (l ++ .route path method handler :: l') = ofRegistrations (l ++ l') := by
  rw [ofRegistrations_append, ofRegistrations_append, List.foldl_cons]
  exact congrArg (List.foldl _ · l') (register_refused h)

end History

/-! ## Exchanges -/

section Exchange

variable {l : List Registration} {c c' : Context} {status : Status} {calls : List Call}

/-- How a history settles the status of an exchange : the handlers of routes that are run, the
status, and the context that is left. -/
inductive Settled (l : List Registration) (c : Context) : List Call → Status → Context → Prop where
  /-- The request was rejected before. -/
  | rejected {e : ParseError} : c.parseError? = some e → Settled l c [] .badRequest c
  /-- The handler that was registered first for the route is run. -/
  | handled {handler : Handler} : c.parseError? = none →
    IsFirst l c.request.path c.request.method handler →
    Settled l c [.route c] (handler.run c).outcome.status (handler.run c).context
  /-- The path was registered, but never for the method. -/
  | methodUnknown : c.parseError? = none →
    (∀ r ∈ l, ¬r.IsFor c.request.path c.request.method) → (∃ r ∈ l, r.Uses c.request.path) →
    Settled l c [] .methodNotAllowed c
  /-- The path was never registered. -/
  | pathUnknown : c.parseError? = none → (∀ r ∈ l, ¬r.Uses c.request.path) →
    Settled l c [] .notFound c

/-- How a history presents a status : the pages that are run, and the context that is left. -/
inductive Paged (l : List Registration) (status : Status) (c : Context) :
    List Call → Context → Prop where
  /-- The exchange went well. -/
  | ok : status.code = 200 → Paged l status c [] c
  /-- No page was registered for the status. -/
  | bare : status.code ≠ 200 → (∀ e ∈ l.flatMap (·.pages), e.1 ≠ status) →
    Paged l status c [] { c with response.status := status }
  /-- The page that was registered last for the status is run. -/
  | page {handler : Handler} : status.code ≠ 200 → IsLast l status handler →
    Paged l status c [.page status { c with response.status := status }]
      (handler.run { c with response.status := status }).context

theorem Resolved.settled (h : Resolved (ofRegistrations l) c calls status c') :
    Settled l c calls status c' := by
  cases h with
  | rejected he => exact .rejected he
  | handled he hr => exact .handled he (route?_eq_some_iff.1 hr)
  | methodUnknown he hr hp =>
    exact .methodUnknown he (route?_eq_none_iff.1 hr) ((hasPath_ofRegistrations l _).1 hp)
  | pathUnknown he _ hp =>
    refine .pathUnknown he fun r hr huses => ?_
    rw [(hasPath_ofRegistrations l _).2 ⟨r, hr, huses⟩] at hp
    contradiction

theorem Presented.paged (h : Presented (ofRegistrations l) status c calls c') :
    Paged l status c calls c' := by
  cases h with
  | ok h200 => exact .ok h200
  | bare h200 hp => exact .bare h200 (page?_eq_none_iff.1 hp)
  | page h200 hp => exact .page h200 (page?_eq_some_iff.1 hp)

/-- The history of registrations determines every exchange : which handler of a route is run, the
status, which page is run, and the response that is written. It determines the known routes, and
which further registrations are refused; of these no later exchange shows a trace. -/
theorem dispatch_ofRegistrations (l : List Registration) :
    (∀ c : Context, ∃ calls calls' status c₁ c₂, Settled l c calls status c₁ ∧
      Paged l status c₁ calls' c₂ ∧ ((ofRegistrations l).dispatch c).calls = calls ++ calls' ∧
      ((ofRegistrations l).dispatch c).status = status ∧
      ((ofRegistrations l).dispatch c).context.response = c₂.response) ∧
    (∀ path method, (ofRegistrations l).hasRoute path method = true ↔
      ∃ r ∈ l, r.IsFor path method) ∧
    (∀ path method handler,
      (((ofRegistrations l).register path method handler).accepted = false ↔
        ∃ r ∈ l, r.IsFor path method) ∧
      (((ofRegistrations l).register path method handler).accepted = false → ∀ l',
        ofRegistrations (l ++ .route path method handler :: l') = ofRegistrations (l ++ l'))) := by
  refine ⟨fun c => ?_, fun _ _ => hasRoute_ofRegistrations, fun _ _ _ =>
    ⟨refused_ofRegistrations, ofRegistrations_refused⟩⟩
  obtain ⟨path, log, hdispatch⟩ := (ofRegistrations l).dispatch_eq c
  have hresolved := (ofRegistrations l).resolved_answer path c
  obtain ⟨hstatus, calls', hcalls, hpresented⟩ :=
    (ofRegistrations l).presented_present path { (ofRegistrations l).answer path c with log }
  rw [hdispatch]
  exact ⟨_, calls', _, _, _, hresolved.settled, hpresented.paged, hcalls, hstatus, rfl⟩

end Exchange

end HttpServer.Dispatcher
