import HttpServer.Proofs.Connections

/-!
# Turns of an event loop

In a turn an event loop asks the system for changes and follows them up. All that it does is a
list of acts (`EventLoop.turn_eq`), so what is known of the connections after any acts is known
after any turns, whatever the peers do between them or in the middle of one.

Changes are told once. If the listener fails while the loop asks it, there may be connections
left that nobody will tell of. The loop keeps that in mind (`EventLoop.acceptRetry_course`), and
its next turn asks again. A descriptor that is said to be readable matters to the connection in
its slot and to no other one (`EventLoop.Spares`). At its end the loop closes the connections
that still wait (`EventLoop.Ended`). `EventLoop.kept_of_sound` is all that one can rely on.
-/

namespace HttpServer.Server.EventLoop

/-! ## Turns as acts -/

variable {limits : Limits} {l l' : EventLoop} {c : Incoming} {w : Waiting} {as : List Act}
  {fd n : Nat}

/-- What the answers of a listener come to. -/
def answerActs : List Acceptance → List Act
  | [] => []
  | .wouldBlock :: _ => []
  | .interrupted :: rest => answerActs rest
  | .failure e :: _ => [.fail e]
  | .connection c :: rest => .accept c :: answerActs rest

/-- What asking a listener comes to. -/
def drainActs (answers : List Acceptance) : List Act := .drain :: answerActs answers

/-- What following a change up comes to. -/
def changeActs : Readiness → List Act
  | .listener answers => drainActs answers
  | .descriptor fd room => [.read fd room]

/-- What a turn comes to. -/
def turnActs (l : EventLoop) (again : List Acceptance) : Poll → List Act
  | .ready changes => (if l.acceptRetry then drainActs again else []) ++ changes.flatMap changeActs
  | _ => []

/-- What turns come to. -/
def runActs (l : EventLoop) : List (List Acceptance × Poll) → List Act
  | [] => []
  | (again, p) :: rest =>
    match l.turn again p with
    | .ok l' => l.turnActs again p ++ l'.runActs rest
    | .error _ => []

theorem ask_eq (l : EventLoop) (answers : List Acceptance) :
    l.ask answers = l.after (answerActs answers) := by
  fun_induction ask l answers with
  | case1 => rfl
  | case2 => rfl
  | case3 l rest ih => exact ih
  | case4 => rfl
  | case5 l c rest ih => exact ih

theorem acceptAll_eq (l : EventLoop) (answers : List Acceptance) :
    l.acceptAll answers = l.after (drainActs answers) :=
  ask_eq _ answers

theorem foldl_follow_eq (l : EventLoop) (changes : List Readiness) :
    changes.foldl follow l = l.after (changes.flatMap changeActs) := by
  induction changes generalizing l with
  | nil => rfl
  | cons change changes ih =>
    rw [List.foldl_cons, List.flatMap_cons, after_append, ih]
    cases change with
    | listener answers => exact congrArg (after · _) (l.acceptAll_eq answers)
    | descriptor => rfl

/-- A turn does nothing but its acts. -/
theorem turn_eq {again : List Acceptance} {p : Poll} (h : l.turn again p = .ok l') :
    l' = l.after (l.turnActs again p) := by
  cases p with
  | interrupted =>
    cases h
    rfl
  | failed => cases h
  | ready changes =>
    cases h
    rw [foldl_follow_eq, turnActs, after_append]
    split
    · rw [acceptAll_eq]
    · rfl

theorem run_eq (l : EventLoop) (turns : List (List Acceptance × Poll)) :
    (l.run turns).2 = (l.after (l.runActs turns)).clearAll := by
  induction turns generalizing l with
  | nil => rfl
  | cons turn rest ih =>
    obtain ⟨again, p⟩ := turn
    cases hl : l.turn again p with
    | ok l' =>
      rw [run, runActs, hl]
      dsimp only
      rw [ih, after_append, ← turn_eq hl]
    | error e =>
      rw [run, runActs, hl]
      rfl

/-! ## Listeners that fail -/

/-- A listener fails before it has no connection left. -/
def endsInFailure : List Acceptance → Bool
  | [] => false
  | .wouldBlock :: _ => false
  | .interrupted :: rest => endsInFailure rest
  | .failure _ :: _ => true
  | .connection _ :: rest => endsInFailure rest

/-- The last time that the listener was asked it failed. -/
def lastFailed (as : List Act) : Bool :=
  as.foldl (fun failed => fun
    | .drain => false
    | .fail _ => true
    | _ => failed) false

theorem lastFailed_concat (as : List Act) (a : Act) :
    lastFailed (as ++ [a]) =
      match a with
      | .drain => false
      | .fail _ => true
      | _ => lastFailed as := by
  rw [lastFailed, List.foldl_append]
  rfl

theorem acceptRetry_takeIn (l : EventLoop) (c : Incoming) :
    (l.takeIn c).acceptRetry = l.acceptRetry := by
  unfold takeIn clear
  dsimp only
  repeat' split
  all_goals rfl

theorem acceptRetry_readable (l : EventLoop) (fd : Nat) (room : Bool) :
    (l.readable fd room).acceptRetry = l.acceptRetry := by
  have h := reads l fd room
  generalize l.readable fd room = l' at h
  cases h <;> rfl

theorem acceptRetry_arrive (l : EventLoop) (fd : Nat) (f : Stream → Stream) :
    (l.arrive fd f).acceptRetry = l.acceptRetry := by
  unfold arrive
  split <;> rfl

theorem acceptRetry_clear (l : EventLoop) (fd : Nat) :
    (l.clear fd).acceptRetry = l.acceptRetry := by
  unfold clear
  split <;> rfl

/-- The loop knows whether the listener failed. -/
theorem acceptRetry_course (limits : Limits) (as : List Act) :
    (course limits as).acceptRetry = lastFailed as := by
  induction as using List.reverseRecOn with
  | nil => rfl
  | append_singleton as a ih =>
    rw [course_append, lastFailed_concat, ← ih]
    cases a with
    | drain | fail => rfl
    | accept c => exact acceptRetry_takeIn _ c
    | read fd room => exact acceptRetry_readable _ fd room
    | arrive fd f => exact acceptRetry_arrive _ fd f
    | clear fd => exact acceptRetry_clear _ fd

theorem acceptRetry_ask (l : EventLoop) (answers : List Acceptance) :
    (l.ask answers).acceptRetry = (l.acceptRetry || endsInFailure answers) := by
  fun_induction ask l answers with
  | case1 => exact (Bool.or_false _).symm
  | case2 => exact (Bool.or_false _).symm
  | case3 l rest ih => exact ih
  | case4 => exact (Bool.or_true _).symm
  | case5 l c rest ih => rw [ih, acceptRetry_takeIn, endsInFailure]

/-! ## What a readable descriptor leaves alone -/

/-- Only the connection in the slot of a descriptor is read from, goes on waiting or leaves. -/
structure Spares (fd : Nat) (l l' : EventLoop) : Prop where
  nobody : l.slot? fd = none → l' = l
  slot {fd' : Nat} : fd' ≠ fd → l'.slot? fd' = l.slot? fd'
  registered {fd' : Nat} : fd' ≠ fd → (fd' ∈ l'.registered ↔ fd' ∈ l.registered)
  waits {w w' : Waiting} : l.slot? fd = some w → l'.slot? fd = some w' →
    w' = { w with reception := w.reception.advance.2 } ∧ l'.left = l.left
  leaves {w : Waiting} : l.slot? fd = some w → l'.slot? fd = none →
    l'.left.Perm (w.number :: l.left)

theorem spares_of_vacate (hw : l.slot? fd = some w) (hslots : l'.slots = (l.vacate fd).slots)
    (hregistered : l'.registered = (l.vacate fd).registered)
    (hleft : l'.left.Perm (w.number :: l.left)) : Spares fd l l' := by
  have hslot (j : Nat) : l'.slot? j = if fd = j then none else l.slot? j := by
    rw [← slot?_vacate, slot?, hslots]
    rfl
  exact {
    nobody := fun h => by cases h.symm.trans hw
    slot := fun hne => by rw [hslot, if_neg hne.symm]
    registered := fun hne => by rw [hregistered, mem_registered_vacate, and_iff_left hne]
    waits := fun _ h' => by
      rw [hslot, if_pos rfl] at h'
      cases h'
    leaves := fun hw' _ => by
      cases hw.symm.trans hw'
      exact hleft }

theorem Reads.spares (h : Reads l fd l') : Spares fd l l' := by
  cases h with
  | nobody h => exact {
      nobody := fun _ => rfl
      slot := fun _ => rfl
      registered := fun _ => Iff.rfl
      waits := fun hw => by cases h.symm.trans hw
      leaves := fun hw => by cases h.symm.trans hw }
  | @waits w r hw hadv =>
    have hlt := lt_of_slot? hw
    have hslot (j : Nat) : ({ l with slots := l.slots.set fd (some { w with reception := r }) } :
        EventLoop).slot? j = if fd = j then some { w with reception := r } else l.slot? j :=
      slot?_set hlt
    exact {
      nobody := fun h => by cases h.symm.trans hw
      slot := fun hne => by rw [hslot, if_neg hne.symm]
      registered := fun _ => Iff.rfl
      waits := fun hw' h' => by
        cases hw.symm.trans hw'
        rw [hslot, if_pos rfl] at h'
        cases h'
        exact ⟨by rw [hadv], rfl⟩
      leaves := fun _ h' => by
        rw [hslot, if_pos rfl] at h'
        cases h' }
  | @hands w x hw hx => exact spares_of_vacate hw rfl rfl (perm_left_of_handed rfl rfl)
  | @closes w s log hw hs => exact spares_of_vacate hw rfl rfl (perm_left_of_closed rfl rfl)

/-! ## The end of a loop -/

theorem slot?_clear (l : EventLoop) (i j : Nat) :
    (l.clear i).slot? j = if i = j then none else l.slot? j := by
  unfold clear
  split
  · rename_i hi
    split
    · rename_i hij
      rw [← hij, hi]
    · rfl
  · exact slot?_vacate l i j

theorem handed_clear (l : EventLoop) (fd : Nat) : (l.clear fd).handed = l.handed := by
  unfold clear
  split <;> rfl

theorem slot?_clearAll (l : EventLoop) (fd : Nat) : l.clearAll.slot? fd = none := by
  suffices hrange : ∀ n, ((List.range n).foldl clear l).slot? fd =
      if fd < n then none else l.slot? fd by
    rw [clearAll, hrange]
    split
    · rfl
    · rename_i hge
      rw [slot?, List.getElem?_eq_none (Nat.not_lt.1 hge)]
      rfl
  intro n
  induction n with
  | zero => rfl
  | succ n ih =>
    rw [List.range_succ, List.foldl_append, List.foldl_cons, List.foldl_nil, slot?_clear, ih]
    split
    · rw [if_pos (by omega)]
    · split
      · rw [if_pos (by omega)]
      · rw [if_neg (by omega)]

theorem handed_clearAll (l : EventLoop) : l.clearAll.handed = l.handed := by
  suffices hfds : ∀ (fds : List Nat) (l : EventLoop), (fds.foldl clear l).handed = l.handed from
    hfds _ l
  intro fds
  induction fds with
  | nil => exact fun _ => rfl
  | cons fd fds ih => exact fun l => (ih (l.clear fd)).trans (l.handed_clear fd)

theorem incoming_clears (as : List Act) (fds : List Nat) :
    incoming (as ++ fds.map .clear) = incoming as := by
  rw [incoming_append, incoming, incoming, List.filterMap_map]
  simp [Function.comp_def, Act.accepted?]

theorem Table.clearAll (h : Table limits as l) :
    Table limits (as ++ (List.range l.slots.length).map .clear) l.clearAll := by
  suffices hfds : ∀ (fds : List Nat) {as : List Act} {l : EventLoop}, Table limits as l →
      Table limits (as ++ fds.map .clear) (fds.foldl clear l) from hfds _ h
  intro fds
  induction fds with
  | nil =>
    intro as l h
    rwa [List.map_nil, List.append_nil]
  | cons fd fds ih =>
    intro as l h
    rw [List.map_cons, List.foldl_cons, List.append_cons]
    exact ih (h.clears fd)

/-- The loop has come to its end. -/
structure Ended (as : List Act) (l l' : EventLoop) : Prop where
  slot (fd : Nat) : l'.slot? fd = none
  registered : l'.registered = []
  /-- Every connection was handed on or closed, and that once. -/
  once : l'.left.Perm (List.range (incoming as).length)
  /-- Those that were still waiting are closed. -/
  waiting {fd : Nat} {w : Waiting} : l.slot? fd = some w →
    ∃ s, (w.number, s) ∈ l'.closed ∧ s.isClosed = true
  handed : l'.handed = l.handed

theorem Table.ended (h : Table limits as l) : Ended as l l.clearAll := by
  have htable := h.clearAll
  have hslot := slot?_clearAll l
  have honce : l.clearAll.left.Perm (List.range (incoming as).length) := by
    have hnumbers : numbers l.clearAll.slots = [] := by
      refine List.filterMap_eq_nil_iff.2 fun w? hw => ?_
      obtain ⟨fd, hfd⟩ := List.getElem?_of_mem hw
      have hnone : w? = none := by
        have := hslot fd
        rwa [slot?, hfd] at this
      rw [hnone]
      rfl
    have honce := htable.once
    rwa [hnumbers, incoming_clears] at honce
  refine ⟨hslot, ?_, honce, fun {fd w} hw => ?_, l.handed_clearAll⟩
  · exact List.eq_nil_iff_forall_not_mem.2 fun fd hfd => htable.registered.1 hfd (hslot fd)
  · have hmem := h.once.mem_iff.1 (List.mem_append_left l.left (mem_numbers hw))
    have hdisjoint := (List.nodup_append.1 (h.once.nodup_iff.2 List.nodup_range)).2.2
    rcases List.mem_append.1 (honce.mem_iff.2 hmem) with hhanded | hclosed
    · rw [handed_clearAll] at hhanded
      exact absurd rfl (hdisjoint _ (mem_numbers hw) _ (List.mem_append_left _ hhanded))
    · obtain ⟨⟨n, s⟩, hs, hn⟩ := List.mem_map.1 hclosed
      exact ⟨s, hn ▸ hs, htable.closed hs⟩

/-! ## What one can rely on -/

/-- Where a connection is. -/
inductive Place (limits : Limits) (as : List Act) (l : EventLoop) (n : Nat) (c : Incoming) :
    Prop where
  /-- It waits in the slot of its own descriptor, with what has come to that since. -/
  | waits {w : Waiting} {es : List Event} {bs : Bytes} : l.slot? c.descriptor = some w →
    w.number = n → c.descriptor ∈ l.registered → Accepted as n c es →
    Took limits c es bs w.reception → Place limits as l n c
  /-- It was handed on, when it was due. -/
  | handed {x : Context} {es es' : List Event} : (n, x) ∈ l.handed →
    Accepted as n c (es ++ .isRead :: es') → Due limits c es x → Place limits as l n c
  /-- It was closed. -/
  | closed {s : Stream} : (n, s) ∈ l.closed → s.isClosed = true → Place limits as l n c

theorem Table.place (h : Table limits as l) (hc : (incoming as)[n]? = some c) :
    Place limits as l n c := by
  have hn : n ∈ List.range (incoming as).length :=
    List.mem_range.2 (List.getElem?_eq_some_iff.1 hc).1
  rcases List.mem_append.1 (h.once.mem_iff.2 hn) with hmem | hmem
  · obtain ⟨w?, hw, hnumber⟩ := List.mem_filterMap.1 hmem
    obtain ⟨w, rfl, rfl⟩ := Option.map_eq_some_iff.1 hnumber
    obtain ⟨fd, hfd⟩ := List.getElem?_of_mem hw
    have hslot : l.slot? fd = some w := congrArg Option.join hfd
    obtain ⟨c', es, bs, hacc, rfl, htook⟩ := h.slot hslot
    cases hc.symm.trans hacc.getElem?
    exact .waits hslot rfl (h.registered.2 (by simp [hslot])) hacc htook
  · rcases List.mem_append.1 hmem with hmem | hmem
    · obtain ⟨⟨_, x⟩, hx, rfl⟩ := List.mem_map.1 hmem
      obtain ⟨c', es, es', hacc, hdue⟩ := h.handed hx
      cases hc.symm.trans hacc.getElem?
      exact .handed hx hacc hdue
    · obtain ⟨⟨_, s⟩, hs, rfl⟩ := List.mem_map.1 hmem
      exact .closed hs (h.closed hs)

/-- What one can rely on, whatever has happened to the loop. -/
structure Kept (limits : Limits) (as : List Act) : Prop where
  /-- Every connection that was accepted is in its place. -/
  place {n : Nat} {c : Incoming} : (incoming as)[n]? = some c →
    Place limits as (course limits as) n c
  /-- It is in no other one, and it was handed on or closed once at most. -/
  once : (numbers (course limits as).slots ++ (course limits as).left).Perm
    (List.range (incoming as).length)
  /-- Readiness is told of the descriptors of those that wait only. -/
  registered {fd : Nat} : fd ∈ (course limits as).registered ↔ (course limits as).slot? fd ≠ none
  /-- A connection that is accepted finds its slot empty. -/
  vacant {c : Incoming} : Sound limits (as ++ [.accept c]) →
    (course limits as).slot? c.descriptor = none
  spares (fd : Nat) (room : Bool) :
    Spares fd (course limits as) ((course limits as).readable fd room)
  /-- Whether the listener failed when it was asked is known until it is asked again. -/
  acceptRetry : (course limits as).acceptRetry = lastFailed as
  drained (answers : List Acceptance) :
    lastFailed (as ++ drainActs answers) = endsInFailure answers
  /-- If the listener failed, the next turn asks it again. -/
  turn (again : List Acceptance) (changes : List Readiness) :
    (course limits as).turn again (.ready changes) = .ok (course limits (as ++
      ((if lastFailed as then drainActs again else []) ++ changes.flatMap changeActs)))
  interrupted (again : List Acceptance) :
    (course limits as).turn again .interrupted = .ok (course limits as)
  /-- However the loop ends, its slots are empty then. -/
  ends (turns : List (List Acceptance × Poll)) :
    Sound limits (as ++ (course limits as).runActs turns) →
      Ended (as ++ (course limits as).runActs turns)
        (course limits (as ++ (course limits as).runActs turns)) ((course limits as).run turns).2

/-- The table of an event loop stays in order as long as the system gives out no descriptor that
is still open. -/
theorem kept_of_sound (h : Sound limits as) : Kept limits as := by
  have htable := h.table
  exact {
    place := fun hc => htable.place hc
    once := htable.once
    registered := htable.registered
    vacant := fun hsound => htable.vacant (hsound (List.prefix_refl _))
    spares := fun fd room => (reads _ fd room).spares
    acceptRetry := acceptRetry_course limits as
    drained := fun answers => by
      rw [← acceptRetry_course limits, course_append, ← acceptAll_eq]
      exact acceptRetry_ask _ answers
    turn := fun again changes => by
      have hturn : (course limits as).turn again (.ready changes) = .ok _ := rfl
      rw [hturn, turn_eq hturn, turnActs, acceptRetry_course, course_append]
    interrupted := fun _ => rfl
    ends := fun turns hsound => by
      rw [run_eq, ← course_append]
      exact hsound.table.ended }

/-- A connection that has sent these bytes. -/
def caller (request : Bytes) : Incoming where
  descriptor := 7
  stream := .socket { incoming := request }
  peer := { ip := .v4 10 0 0 7, port := 4000, scope := 0 }

/-- A connection with a whole request comes and is read from, and another one gets its
descriptor before the listener fails. -/
def reused : List Act :=
  [.drain, .accept (caller (utf8 "GET / HTTP/1.1\r\n\r\n")), .read 7 true] ++
    [.drain, .accept (caller []), .fail { kind := .other }]

theorem mem_left_reused : 0 ∈ (course {} (reused.take 3)).left := by
  have hreads : Reads (course {} (reused.take 2)) 7 (course {} (reused.take 3)) := reads _ 7 true
  have hslot : (course {} (reused.take 2)).slot? 7 = some
      { number := 0
        reception := .ofStream {} (caller (utf8 "GET / HTTP/1.1\r\n\r\n")).stream
          (some (caller []).peer) } := rfl
  obtain ⟨reader, hadv, -⟩ :=
    (@Took.start {} (caller (utf8 "GET / HTTP/1.1\r\n\r\n"))).fed.advance
  refine hreads.mem_left hslot (ne_of_eq_of_ne (congrArg Prod.fst hadv) ?_)
  dsimp only
  decide

theorem sound_reused : Sound {} reused := by
  have hfree (d : Nat) : IsFree {} [.drain] d := by
    refine isFree_of_left (fun n hn => ?_) d
    exact absurd hn n.not_lt_zero
  have hfree' (d : Nat) : IsFree {} (reused.take 4) d := by
    refine isFree_of_left (fun n hn => ?_) d
    obtain rfl : n = 0 := Nat.lt_one_iff.1 hn
    exact mem_left_reused
  have hdrain : Sound {} [.drain] := (sound_nil {}).concat_of_accepted? rfl
  have haccept := hdrain.concat (a := .accept (caller (utf8 "GET / HTTP/1.1\r\n\r\n")))
    fun c _ => hfree c.descriptor
  have hread := haccept.concat_of_accepted? (a := .read 7 true) rfl
  have hdrain' := hread.concat_of_accepted? (a := .drain) rfl
  have haccept' := hdrain'.concat (a := .accept (caller [])) fun c _ => hfree' c.descriptor
  exact haccept'.concat_of_accepted? (a := .fail { kind := .other }) rfl

/-- What one can rely on, after a descriptor has been used again. -/
theorem kept_of_sound_reused : Sound {} reused ∧ Kept {} reused :=
  ⟨sound_reused, kept_of_sound sound_reused⟩

end HttpServer.Server.EventLoop
