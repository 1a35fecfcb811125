import HttpServer.Proofs.Advancing
import HttpServer.Proofs.Closing
import HttpServer.Proofs.Working

/-!
# The connections of an event loop

An event loop accepts connections, reads from those that have something, hands them on and closes
them. `Act` lists the smallest things that happen to it, so that the peers can do something
between any two of them. What an act can do is `TakesIn` and `Reads`.

The system gives a descriptor to a new connection only when it is no longer in use, and a
connection that the loop has neither handed on nor closed is still open (`Sound`). This is enough
to keep the table in order (`Sound.table`) : every connection is in one place, one that waits
stands in the slot of its own descriptor, and no slot is taken twice (`Table.vacant`). What was
handed on was due for it.
-/

namespace HttpServer

theorem Stream.isClosed_abandon (s : Stream) : s.abandon.isClosed = true := by
  cases s with
  | memory m => rfl
  | script a b c => rfl
  | socket t => exact t.closed_abandon

namespace Server.EventLoop

variable {limits : Limits} {l l' : EventLoop} {c : Incoming} {w : Waiting} {fd n : Nat}
  {room : Bool}

/-! ## Acts -/

/-- The smallest things that happen to an event loop. -/
inductive Act where
  /-- It is going to ask the listener until it has no connection left. -/
  | drain
  | accept (c : Incoming)
  /-- The listener fails. -/
  | fail (e : IoError)
  /-- A descriptor is said to be readable. -/
  | read (fd : Nat) (room : Bool)
  /-- Something arrives on a descriptor, or its peer ends or goes. -/
  | arrive (fd : Nat) (f : Stream → Stream)
  /-- A slot is emptied because the loop comes to its end. -/
  | clear (fd : Nat)

/-- What comes of an act. -/
def act (l : EventLoop) : Act → EventLoop
  | .drain => { l with acceptRetry := false }
  | .accept c => l.takeIn c
  | .fail e => { l with acceptRetry := true }.say (acceptFailed e)
  | .read fd room => l.readable fd room
  | .arrive fd f => l.arrive fd f
  | .clear fd => l.clear fd

/-- What comes of some acts. -/
def after (l : EventLoop) (as : List Act) : EventLoop := as.foldl act l

/-- The connection that is accepted. -/
def Act.accepted? : Act → Option Incoming
  | accept c => some c
  | _ => none

/-- What happens to a connection with this descriptor. -/
def Act.event? (fd : Nat) : Act → Option Event
  | read i _ => if i = fd then some .isRead else none
  | arrive i f => if i = fd then some (.arrives f) else none
  | _ => none

/-- The connections that were accepted, by their numbers. -/
def incoming (as : List Act) : List Incoming := as.filterMap Act.accepted?

/-- The connection with this number was accepted, and these events have come to its descriptor
since. -/
def Accepted (as : List Act) (n : Nat) (c : Incoming) (es : List Event) : Prop :=
  ∃ as₁ as₂, as = as₁ ++ .accept c :: as₂ ∧ (incoming as₁).length = n ∧
    as₂.filterMap (Act.event? c.descriptor) = es

section Accepted

variable {as : List Act} {a : Act} {es : List Event}

theorem incoming_append (as bs : List Act) : incoming (as ++ bs) = incoming as ++ incoming bs :=
  List.filterMap_append

theorem incoming_concat_of_accepted? (ha : a.accepted? = none) (as : List Act) :
    incoming (as ++ [a]) = incoming as := by
  rw [incoming_append, incoming, incoming, List.filterMap_cons_none ha, List.filterMap_nil,
    List.append_nil]

theorem accepted_concat (as : List Act) (c : Incoming) :
    Accepted (as ++ [.accept c]) (incoming as).length c [] :=
  ⟨as, [], rfl, rfl, rfl⟩

theorem Accepted.concat (h : Accepted as n c es) (a : Act) :
    Accepted (as ++ [a]) n c (es ++ (a.event? c.descriptor).toList) := by
  obtain ⟨as₁, as₂, rfl, hn, rfl⟩ := h
  refine ⟨as₁, as₂ ++ [a], by simp, hn, ?_⟩
  rw [List.filterMap_append, List.filterMap_cons, List.filterMap_nil]
  cases a.event? c.descriptor <;> rfl

theorem Accepted.getElem? (h : Accepted as n c es) : (incoming as)[n]? = some c := by
  obtain ⟨as₁, as₂, rfl, rfl, -⟩ := h
  rw [incoming_append, List.getElem?_append_right (Nat.le_refl _), Nat.sub_self]
  rfl

end Accepted

/-! ## Slots -/

theorem slot?_set {slots : List (Option Waiting)} {i j : Nat} {w? : Option Waiting}
    (h : i < slots.length) :
    (slots.set i w?)[j]?.join = if i = j then w? else slots[j]?.join := by
  rw [List.getElem?_set, if_pos h]
  split <;> rfl

theorem getElem?_of_slot? (h : l.slot? fd = some w) : l.slots[fd]? = some (some w) :=
  Option.join_eq_some_iff.1 h

theorem lt_of_slot? (h : l.slot? fd = some w) : fd < l.slots.length :=
  (List.getElem?_eq_some_iff.1 (getElem?_of_slot? h)).1

theorem clear_of_slot? (h : l.slot? fd = none) : l.clear fd = l := by
  unfold clear
  rw [h]

theorem slot?_vacate (l : EventLoop) (i j : Nat) :
    (l.vacate i).slot? j = if i = j then none else l.slot? j := by
  by_cases h : i < l.slots.length
  · exact slot?_set h
  · unfold vacate slot?
    rw [List.set_eq_of_length_le (Nat.not_lt.1 h)]
    split
    · rename_i hij
      subst hij
      rw [List.getElem?_eq_none (Nat.not_lt.1 h)]
      rfl
    · rfl

theorem mem_registered_vacate {i j : Nat} :
    j ∈ (l.vacate i).registered ↔ j ∈ l.registered ∧ j ≠ i := by
  simp [vacate]

/-! ## What an act can do -/

/-- A connection is taken in. -/
inductive TakesIn (l : EventLoop) (c : Incoming) : EventLoop → Prop where
  /-- It waits in its slot. -/
  | waits : c.descriptor < maxDescriptors → TakesIn l c { l with
      accepted := l.accepted + 1
      slots := l.slots.set c.descriptor (some
        { number := l.accepted, reception := .ofStream l.limits c.stream (some c.peer) })
      registered := l.registered ++ [c.descriptor] }
  /-- It is refused. -/
  | refused {s : Stream} {log : List LogLine} : s.isClosed = true → TakesIn l c { l with
      accepted := l.accepted + 1
      closed := l.closed ++ [(l.accepted, s)]
      log }

theorem takesIn (h : l.slot? c.descriptor = none) : TakesIn l c (l.takeIn c) := by
  unfold takeIn
  dsimp only
  split
  · exact .refused c.stream.isClosed_abandon
  · rename_i hlt
    split
    · exact .refused c.stream.isClosed_abandon
    · exact .refused (Stream.isClosed_close _)
    · rw [clear_of_slot? (l := { l with accepted := l.accepted + 1 }) h]
      exact .waits (Nat.not_le.1 hlt)

/-- A descriptor is said to be readable. -/
inductive Reads (l : EventLoop) (fd : Nat) : EventLoop → Prop where
  /-- Nobody waits there. -/
  | nobody : l.slot? fd = none → Reads l fd l
  /-- The connection goes on waiting. -/
  | waits {w : Waiting} {r : Reception} : l.slot? fd = some w →
    w.reception.advance = (.ok .pending, r) →
    Reads l fd { l with slots := l.slots.set fd (some { w with reception := r }) }
  /-- The connection is handed on. -/
  | hands {w : Waiting} {x : Context} : l.slot? fd = some w → Concludes w.reception x →
    Reads l fd { l.vacate fd with handed := l.handed ++ [(w.number, x)] }
  /-- The connection is closed. -/
  | closes {w : Waiting} {s : Stream} {log : List LogLine} : l.slot? fd = some w →
    s.isClosed = true → Reads l fd { l.vacate fd with closed := l.closed ++ [(w.number, s)], log }

theorem reads_handOn {x : Context} (hw : l.slot? fd = some w) (hx : Concludes w.reception x)
    (room : Bool) : Reads l fd ((l.vacate fd).handOn w.number x room) := by
  cases room with
  | true => exact .hands hw hx
  | false => exact .closes hw (Stream.isClosed_close _)

theorem reads (l : EventLoop) (fd : Nat) (room : Bool) : Reads l fd (l.readable fd room) := by
  unfold readable
  split
  · exact .nobody ‹_›
  · rename_i w hw
    split
    · exact .waits hw ‹_›
    · exact reads_handOn hw (.complete ‹_›) room
    · exact .closes hw (Stream.isClosed_close _)
    · rename_i e r he hadv
      exact reads_handOn hw (.rejected hadv he) room

/-- The connections that have left the loop. -/
def left (l : EventLoop) : List Nat := l.handed.map Prod.fst ++ l.closed.map Prod.fst

/-- A connection leaves if its request is complete or rejected. -/
theorem Reads.mem_left (h : Reads l fd l') (hw : l.slot? fd = some w)
    (hadv : w.reception.advance.1 ≠ .ok .pending) : w.number ∈ l'.left := by
  cases h with
  | nobody hn => cases hn.symm.trans hw
  | waits hw' hadv' =>
    cases hw.symm.trans hw'
    exact absurd (congrArg Prod.fst hadv') hadv
  | hands hw' =>
    cases hw.symm.trans hw'
    simp [left]
  | closes hw' =>
    cases hw.symm.trans hw'
    simp [left]

/-! ## Every connection in one place -/

/-- The connections in the slots. -/
def numbers (slots : List (Option Waiting)) : List Nat :=
  slots.filterMap (Option.map Waiting.number)

/-- The table of a loop after some acts. -/
structure Table (limits : Limits) (as : List Act) (l : EventLoop) : Prop where
  limits_eq : l.limits = limits
  length_eq : l.slots.length = maxDescriptors
  accepted : l.accepted = (incoming as).length
  /-- Every connection is in one place. -/
  once : (numbers l.slots ++ l.left).Perm (List.range (incoming as).length)
  /-- A connection that waits stands in the slot of its own descriptor. -/
  slot {fd : Nat} {w : Waiting} : l.slot? fd = some w → ∃ c es bs,
    Accepted as w.number c es ∧ c.descriptor = fd ∧ Took limits c es bs w.reception
  registered {fd : Nat} : fd ∈ l.registered ↔ l.slot? fd ≠ none
  handed {n : Nat} {x : Context} : (n, x) ∈ l.handed → ∃ c es es',
    Accepted as n c (es ++ .isRead :: es') ∧ Due limits c es x
  closed {n : Nat} {s : Stream} : (n, s) ∈ l.closed → s.isClosed = true

theorem mem_numbers (h : l.slot? fd = some w) : w.number ∈ numbers l.slots :=
  List.mem_filterMap.2 ⟨some w, List.mem_of_getElem? (getElem?_of_slot? h), rfl⟩

/-- What a slot brings to the connections is replaced with it. -/
theorem perm_numbers_set {slots : List (Option Waiting)} {i : Nat} {w? : Option Waiting}
    (h : slots[i]? = some w?) (w?' : Option Waiting) :
    ((w?'.map Waiting.number).toList ++ numbers slots).Perm
      ((w?.map Waiting.number).toList ++ numbers (slots.set i w?')) :=
  Pool.perm_filterMap_set h w?' _

theorem perm_left_of_closed {n : Nat} {s : Stream} (hh : l'.handed = l.handed)
    (hc : l'.closed = l.closed ++ [(n, s)]) : l'.left.Perm (n :: l.left) := by
  rw [left, hh, hc, List.map_append, ← List.append_assoc]
  exact List.perm_append_singleton _ _

theorem perm_left_of_handed {n : Nat} {x : Context} (hh : l'.handed = l.handed ++ [(n, x)])
    (hc : l'.closed = l.closed) : l'.left.Perm (n :: l.left) := by
  rw [left, hh, hc, List.map_append, List.append_assoc]
  exact List.perm_middle

theorem slot?_start (limits : Limits) (fd : Nat) : ({ limits } : EventLoop).slot? fd = none := by
  rw [slot?, List.getElem?_replicate]
  split <;> rfl

theorem table_start (limits : Limits) : Table limits [] { limits } where
  limits_eq := rfl
  length_eq := List.length_replicate
  accepted := rfl
  once := by simp [numbers, left, incoming]
  slot h := by
    rw [slot?_start] at h
    contradiction
  registered := by simp [slot?_start]
  handed h := by cases h
  closed h := by cases h

namespace Table

variable {as : List Act} {a : Act} (h : Table limits as l)
include h

/-- An act that has to do with other descriptors. -/
theorem slot_concat (hw : l.slot? fd = some w) (ha : a.event? fd = none) : ∃ c es bs,
    Accepted (as ++ [a]) w.number c es ∧ c.descriptor = fd ∧ Took limits c es bs w.reception := by
  obtain ⟨c, es, bs, hacc, rfl, htook⟩ := h.slot hw
  have hacc' := hacc.concat a
  rw [ha, Option.toList_none, List.append_nil] at hacc'
  exact ⟨c, es, bs, hacc', rfl, htook⟩

theorem handed_concat {x : Context} (hx : (n, x) ∈ l.handed) (a : Act) : ∃ c es es',
    Accepted (as ++ [a]) n c (es ++ .isRead :: es') ∧ Due limits c es x := by
  obtain ⟨c, es, es', hacc, hdue⟩ := h.handed hx
  have hacc' := hacc.concat a
  rw [List.append_assoc, List.cons_append] at hacc'
  exact ⟨c, es, _, hacc', hdue⟩

theorem accepted_concat (c : Incoming) :
    l.accepted + 1 = (incoming (as ++ [.accept c])).length := by
  rw [incoming_append, List.length_append, h.accepted]
  rfl

/-- A new connection comes to be in one place. -/
theorem once_concat {l' : EventLoop}
    (hl : (numbers l'.slots ++ l'.left).Perm (l.accepted :: (numbers l.slots ++ l.left)))
    (c : Incoming) : (numbers l'.slots ++ l'.left).Perm
      (List.range (incoming (as ++ [.accept c])).length) := by
  rw [← h.accepted_concat c, List.range_succ]
  refine hl.trans ((List.Perm.cons _ ?_).trans (List.perm_append_singleton _ _).symm)
  rw [h.accepted]
  exact h.once

theorem takesIn (hfree : l.slot? c.descriptor = none) (hl : TakesIn l c l') :
    Table limits (as ++ [.accept c]) l' := by
  cases hl with
  | waits hlt =>
    have hlt' : c.descriptor < l.slots.length := h.length_eq ▸ hlt
    have hslot : l.slots[c.descriptor]? = some none := by
      rw [List.getElem?_eq_getElem hlt']
      exact congrArg some (by simpa [slot?, hlt'] using hfree)
    exact {
      limits_eq := h.limits_eq
      length_eq := by rw [List.length_set, h.length_eq]
      accepted := h.accepted_concat c
      once := by
        refine h.once_concat ?_ c
        exact (perm_numbers_set hslot (some _)).symm.append_right l.left
      slot := fun {fd w} hw => by
        rw [slot?, slot?_set hlt'] at hw
        split at hw
        · rename_i hfd
          cases hw
          exact ⟨c, [], [], h.accepted ▸ EventLoop.accepted_concat as c, hfd,
            h.limits_eq ▸ .start⟩
        · exact h.slot_concat hw rfl
      registered := fun {fd} => by
        rw [slot?, slot?_set hlt', List.mem_append, List.mem_singleton]
        split
        · rename_i hfd
          simp [hfd]
        · rename_i hfd
          rw [or_iff_left (Ne.symm hfd)]
          exact h.registered
      handed := fun hx => h.handed_concat hx _
      closed := h.closed }
  | @refused s _ hs =>
    exact { h with
      accepted := h.accepted_concat c
      once := by
        refine h.once_concat ?_ c
        refine List.Perm.trans (List.Perm.append_left _ ?_) List.perm_middle
        exact perm_left_of_closed rfl rfl
      slot := fun hw => h.slot_concat hw rfl
      handed := fun hx => h.handed_concat hx _
      closed := fun hmem => by
        rcases List.mem_append.1 hmem with hmem | hmem
        · exact h.closed hmem
        · obtain ⟨-, rfl⟩ := Prod.mk.inj (List.mem_singleton.1 hmem)
          exact hs }

/-- Nothing comes of an act that has to do with no connection. -/
theorem rests (ha : a.accepted? = none)
    (hother : ∀ ⦃fd w⦄, l.slot? fd = some w → a.event? fd = none) : Table limits (as ++ [a]) l :=
  { h with
    accepted := by rw [incoming_concat_of_accepted? ha, h.accepted]
    once := by
      rw [incoming_concat_of_accepted? ha]
      exact h.once
    slot := fun hw => h.slot_concat hw (hother hw)
    handed := fun hx => h.handed_concat hx a }

/-- A connection that waits goes on waiting. -/
theorem waits {r : Reception} (ha : a.accepted? = none)
    (hother : ∀ ⦃i⦄, fd ≠ i → a.event? i = none) (hw : l.slot? fd = some w)
    (hr : ∀ c es bs, Took limits c es bs w.reception →
      ∃ bs', Took limits c (es ++ (a.event? fd).toList) bs' r) :
    Table limits (as ++ [a])
      { l with slots := l.slots.set fd (some { w with reception := r }) } := by
  have hlt := lt_of_slot? hw
  exact { h with
    length_eq := by rw [List.length_set, h.length_eq]
    accepted := by rw [incoming_concat_of_accepted? ha, h.accepted]
    once := by
      rw [incoming_concat_of_accepted? ha]
      have hset := perm_numbers_set (getElem?_of_slot? hw) (some { w with reception := r })
      exact (hset.cons_inv.symm.append_right l.left).trans h.once
    slot := fun {i w'} hw' => by
      rw [slot?, slot?_set hlt] at hw'
      split at hw'
      · rename_i hi
        cases hw'
        obtain ⟨c, es, bs, hacc, rfl, htook⟩ := h.slot hw
        obtain ⟨bs', htook'⟩ := hr c es bs htook
        exact ⟨c, _, bs', hacc.concat a, hi, htook'⟩
      · rename_i hi
        exact h.slot_concat hw' (hother hi)
    registered := fun {i} => by
      rw [slot?, slot?_set hlt]
      split
      · rename_i hi
        subst hi
        simp [h.registered, hw]
      · exact h.registered
    handed := fun hx => h.handed_concat hx a }

/-- A connection leaves its slot. -/
theorem leaves (ha : a.accepted? = none) (hother : ∀ ⦃i⦄, fd ≠ i → a.event? i = none)
    (hw : l.slot? fd = some w) {hs : List (Nat × Context)} {cls : List (Nat × Stream)}
    {log : List LogLine}
    (hleft : ({ l with handed := hs, closed := cls } : EventLoop).left.Perm
      (w.number :: l.left))
    (hhanded : ∀ ⦃n x⦄, (n, x) ∈ hs → ∃ c es es',
      Accepted (as ++ [a]) n c (es ++ .isRead :: es') ∧ Due limits c es x)
    (hclosed : ∀ ⦃n s⦄, (n, s) ∈ cls → s.isClosed = true) :
    Table limits (as ++ [a]) { l.vacate fd with handed := hs, closed := cls, log } where
  limits_eq := h.limits_eq
  length_eq := by
    rw [← h.length_eq]
    exact List.length_set ..
  accepted := by
    rw [incoming_concat_of_accepted? ha]
    exact h.accepted
  once := by
    rw [incoming_concat_of_accepted? ha]
    have hset : (numbers l.slots).Perm (w.number :: numbers (l.vacate fd).slots) :=
      perm_numbers_set (getElem?_of_slot? hw) none
    refine ((hleft.append_left _).trans List.perm_middle).trans (List.Perm.trans ?_ h.once)
    exact (hset.append_right l.left).symm
  slot {i w'} hw' := by
    have hvacate : (l.vacate fd).slot? i = some w' := hw'
    rw [slot?_vacate] at hvacate
    split at hvacate
    · contradiction
    · rename_i hi
      exact h.slot_concat hvacate (hother hi)
  registered {i} := by
    change i ∈ (l.vacate fd).registered ↔ (l.vacate fd).slot? i ≠ none
    rw [mem_registered_vacate, slot?_vacate, h.registered]
    split
    · rename_i hi
      simp [hi]
    · rename_i hi
      simp [Ne.symm hi]
  handed hx := hhanded hx
  closed hs := hclosed hs

theorem closed_concat {s : Stream} (hs : s.isClosed = true) ⦃m : Nat⦄ ⦃s' : Stream⦄
    (hmem : (m, s') ∈ l.closed ++ [(n, s)]) : s'.isClosed = true := by
  rcases List.mem_append.1 hmem with hmem | hmem
  · exact h.closed hmem
  · obtain ⟨-, rfl⟩ := Prod.mk.inj (List.mem_singleton.1 hmem)
    exact hs

theorem reads (hl : Reads l fd l') (room : Bool) : Table limits (as ++ [.read fd room]) l' := by
  have hself : Act.event? fd (.read fd room) = some .isRead := if_pos rfl
  have hother ⦃i : Nat⦄ (hi : fd ≠ i) : Act.event? i (.read fd room) = none := if_neg hi
  cases hl with
  | nobody hn =>
    refine h.rests rfl fun i w hw => hother ?_
    rintro rfl
    cases hn.symm.trans hw
  | @waits w r hw hadv =>
    refine h.waits rfl hother hw fun c es bs htook => ⟨bs ++ w.reception.stream.supply.1, ?_⟩
    rw [hself]
    exact htook.isRead hadv
  | hands hw hx =>
    refine h.leaves rfl hother hw (perm_left_of_handed rfl rfl) (fun n x hmem => ?_)
      fun _ _ hs => h.closed hs
    rcases List.mem_append.1 hmem with hmem | hmem
    · exact h.handed_concat hmem _
    · obtain ⟨rfl, rfl⟩ := Prod.mk.inj (List.mem_singleton.1 hmem)
      obtain ⟨c, es, bs, hacc, rfl, htook⟩ := h.slot hw
      have hacc' := hacc.concat (.read c.descriptor room)
      rw [hself] at hacc'
      exact ⟨c, es, [], hacc', htook.due hx⟩
  | closes hw hs =>
    exact h.leaves rfl hother hw (perm_left_of_closed rfl rfl) (fun n x hx => h.handed_concat hx _)
      (h.closed_concat hs)

theorem arrives (fd : Nat) (f : Stream → Stream) :
    Table limits (as ++ [.arrive fd f]) (l.arrive fd f) := by
  have hself : Act.event? fd (.arrive fd f) = some (.arrives f) := if_pos rfl
  have hother ⦃i : Nat⦄ (hi : fd ≠ i) : Act.event? i (.arrive fd f) = none := if_neg hi
  unfold arrive
  split
  · rename_i hn
    refine h.rests rfl fun i w hw => hother ?_
    rintro rfl
    cases hn.symm.trans hw
  · rename_i w hw
    refine h.waits rfl hother hw fun c es bs htook => ⟨bs, ?_⟩
    rw [hself]
    exact htook.arrives f

theorem clears (fd : Nat) : Table limits (as ++ [.clear fd]) (l.clear fd) := by
  unfold clear
  split
  · exact h.rests rfl fun _ _ _ => rfl
  · rename_i w hw
    exact h.leaves rfl (fun _ _ => rfl) hw (perm_left_of_closed rfl rfl)
      (fun n x hx => h.handed_concat hx _) (h.closed_concat (Stream.isClosed_close _))

/-- A descriptor that no connection can still use has no connection in its slot. -/
theorem vacant {d : Nat}
    (hfree : ∀ ⦃n c⦄, (incoming as)[n]? = some c → c.descriptor = d → n ∈ l.left) :
    l.slot? d = none := by
  by_contra hne
  obtain ⟨w, hw⟩ := Option.ne_none_iff_exists'.1 hne
  obtain ⟨c, _, -, hacc, hd, -⟩ := h.slot hw
  have hnodup := h.once.nodup_iff.2 List.nodup_range
  exact (List.nodup_append.1 hnodup).2.2 _ (mem_numbers hw) _ (hfree hacc.getElem? hd) rfl

theorem act (a : Act) (hfree : ∀ c, a = .accept c → l.slot? c.descriptor = none) :
    Table limits (as ++ [a]) (l.act a) := by
  cases a with
  | drain | fail => exact { h.rests rfl (fun _ _ _ => rfl) with }
  | accept c => exact h.takesIn (hfree c rfl) (EventLoop.takesIn (hfree c rfl))
  | read fd room => exact h.reads (EventLoop.reads l fd room) room
  | arrive fd f => exact h.arrives fd f
  | clear fd => exact h.clears fd

end Table

/-! ## Runs -/

/-- The loop after some acts. -/
def course (limits : Limits) (as : List Act) : EventLoop := after { limits } as

/-- Every connection that had this descriptor before was handed on or closed. -/
def IsFree (limits : Limits) (as : List Act) (d : Nat) : Prop :=
  ∀ ⦃n c⦄, (incoming as)[n]? = some c → c.descriptor = d → n ∈ (course limits as).left

/-- The system does not give out a descriptor that is still open. -/
def Sound (limits : Limits) (as : List Act) : Prop :=
  ∀ ⦃as₁ c⦄, as₁ ++ [.accept c] <+: as → IsFree limits as₁ c.descriptor

section Sound

variable {as as' : List Act} {a : Act}

theorem isFree_of_left (h : ∀ n < (incoming as).length, n ∈ (course limits as).left) (d : Nat) :
    IsFree limits as d :=
  fun n _ hc _ => h n (List.getElem?_eq_some_iff.1 hc).1

theorem after_append (l : EventLoop) (as bs : List Act) :
    l.after (as ++ bs) = (l.after as).after bs :=
  List.foldl_append

theorem course_append (limits : Limits) (as bs : List Act) :
    course limits (as ++ bs) = (course limits as).after bs :=
  after_append _ as bs

theorem Sound.of_prefix (h : Sound limits as) (hpre : as' <+: as) : Sound limits as' :=
  fun _ _ hacc => h (hacc.trans hpre)

theorem sound_nil (limits : Limits) : Sound limits [] :=
  fun as₁ _ hpre => absurd (List.prefix_nil.1 hpre) (List.append_ne_nil_of_right_ne_nil as₁ nofun)

theorem Sound.concat (h : Sound limits as)
    (ha : ∀ c, a = .accept c → IsFree limits as c.descriptor) : Sound limits (as ++ [a]) := by
  intro as₁ c hpre
  rcases List.prefix_concat_iff.1 hpre with heq | hpre
  · obtain ⟨rfl, hac⟩ := List.append_inj' heq rfl
    exact ha c (List.singleton_inj.1 hac).symm
  · exact h hpre

theorem Sound.concat_of_accepted? (h : Sound limits as) (ha : a.accepted? = none) :
    Sound limits (as ++ [a]) := by
  refine h.concat fun c hc => ?_
  rw [hc] at ha
  contradiction

theorem Sound.table (h : Sound limits as) : Table limits as (course limits as) := by
  induction as using List.reverseRecOn with
  | nil => exact table_start limits
  | append_singleton as a ih =>
    have htable := ih (h.of_prefix (List.prefix_append _ _))
    rw [course_append]
    refine htable.act a fun c hc => ?_
    subst hc
    exact htable.vacant (h (List.prefix_refl _))

end Sound

end Server.EventLoop

end HttpServer
