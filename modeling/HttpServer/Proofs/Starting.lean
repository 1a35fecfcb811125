import HttpServer.Proofs.Restarting

/-!
# Starts that fail

A start fails if the flag is raised, if nothing was registered to answer connections, if the
port cannot be listened on, if what the engine needs besides cannot be made, or if there is no
thread for the loop. A failed start is to leave no trace (`Timeline.ChangesNothing`).

None of the five touches the flag or the loops, and later starts go as if it had not been tried.
But the address is set as soon as the port is listened on, and nobody takes it back when one of
the last two things fails (`Server.launch_withAddress`). So a failed start leaves no trace
exactly if it does not come to listen, or listens where the server listened last
(`Timeline.changesNothing_iff`). The address that it leaves behind is gone with the next start
that starts a loop.
-/

namespace HttpServer.Server

/-! ## Launches -/

variable {s : Server} {l : Launch}

/-- The server with another address. -/
def withAddress (s : Server) (address? : Option Address) : Server := { s with address? }

/-- The port that a launch comes to listen on. -/
def listensOn? (s : Server) (l : Launch) : Option Nat :=
  if s.running ∨ s.callback?.isNone then none else (l.listen s.config.port).toOption

/-- The address after a launch. -/
def addressAfter? (s : Server) (l : Launch) (address? : Option Address) : Option Address :=
  ((s.listensOn? l).map anyAddress).or address?

/-- A launch changes nothing but the address, if it comes to listen, and the flag. The address
has no other part in it. -/
theorem launch_withAddress (s : Server) (address? : Option Address) (l : Launch) :
    (s.withAddress address?).launch l =
      { s.launch l with
        server := { s with
          address? := s.addressAfter? l address?
          running := (s.launch l).server.running } } := by
  obtain ⟨kind, config, limits, callback?, old?, running⟩ := s
  obtain ⟨listen, prepare, spawn⟩ := l
  cases running with
  | true => rfl
  | false =>
    cases callback? with
    | none => rfl
    | some callback =>
      unfold addressAfter? listensOn? launch
      dsimp only [withAddress]
      rcases listen config.port with source | port
      · rfl
      · rcases prepare with e | _
        · rfl
        · rcases spawn with source | _
          · rfl
          · rfl

/-- What a launch does to the server. -/
theorem launch_server (s : Server) (l : Launch) :
    (s.launch l).server = { s with
      address? := s.addressAfter? l s.address?
      running := (s.launch l).server.running } :=
  congrArg Launched.server (s.launch_withAddress s.address? l)

/-- A launch that starts a loop has come to listen. -/
theorem exists_listensOn? (h : (s.launch l).task = .running) :
    ∃ port, s.listensOn? l = some port := by
  unfold launch at h
  unfold listensOn?
  split at h
  · cases h
  · rename_i hr
    split at h
    · cases h
    · rename_i hc
      rw [if_neg (by simp [hr, hc])]
      split at h
      · cases h
      · rename_i port hport
        exact ⟨port, by rw [hport]; rfl⟩

namespace Timeline

variable {t : Timeline}

/-! ## Addresses -/

/-- The timeline with another address. -/
def withAddress (t : Timeline) (address? : Option Address) : Timeline :=
  { t with server := t.server.withAddress address? }

/-- What a start does depends on the address only where it leaves it as it is. -/
theorem start_withAddress (t : Timeline) (address? : Option Address) (l : Launch) :
    (t.withAddress address?).start l =
      (t.start l).withAddress (t.server.addressAfter? l address?) := by
  have hserver := t.server.launch_server l
  unfold start withAddress
  dsimp only
  rw [Server.launch_withAddress, hserver]
  rfl

/-- A start that starts a loop does not depend on the address at all. -/
theorem start_withAddress_of_launches (h : Launches t l) (address? : Option Address) :
    (t.withAddress address?).start l = t.start l := by
  obtain ⟨port, hport⟩ := exists_listensOn? h
  have hafter (address? : Option Address) :
      t.server.addressAfter? l address? = some (anyAddress port) := by
    rw [addressAfter?, hport]
    rfl
  have hself := t.start_withAddress t.server.address? l
  rw [start_withAddress, hafter]
  rw [hafter] at hself
  exact hself.symm

/-- A start that starts no loop changes nothing but the address. -/
theorem start_eq_withAddress (h : (t.server.launch l).task ≠ .running) :
    t.start l = t.withAddress (t.server.addressAfter? l t.server.address?) := by
  have hrunning := t.server.launch_running l
  rw [if_neg h] at hrunning
  have hserver := t.server.launch_server l
  rw [hrunning] at hserver
  unfold start
  dsimp only
  rw [if_neg h, hserver]
  rfl

/-- Timelines that differ in the address go on to do so, if at all. -/
theorem act_withAddress (t : Timeline) (address? : Option Address) (a : Act) :
    ∃ b?, (t.withAddress address?).act a = (t.act a).withAddress b? := by
  have hloops : (t.withAddress address?).loops = t.loops := rfl
  have hrunning : (t.withAddress address?).server.running = t.server.running := rfl
  cases a with
  | onConnection callback => exact ⟨address?, rfl⟩
  | start l => exact ⟨_, t.start_withAddress address? l⟩
  | stop => exact ⟨address?, rfl⟩
  | look i =>
    refine ⟨address?, ?_⟩
    unfold act look
    dsimp only
    rw [hloops, hrunning]
    split
    · split <;> rfl
    · rfl
  | fails i e =>
    refine ⟨address?, ?_⟩
    unfold act fails
    dsimp only
    rw [hloops]
    split <;> rfl
  | givesUp i e =>
    refine ⟨address?, ?_⟩
    unfold act givesUp
    dsimp only
    rw [hloops]
    split <;> rfl
  | panics i =>
    refine ⟨address?, ?_⟩
    unfold act panics
    dsimp only
    rw [hloops]
    split <;> rfl
  | ends i =>
    refine ⟨address?, ?_⟩
    unfold act ends
    dsimp only
    rw [hloops]
    split <;> rfl

/-! ## What comes after -/

/-- What comes of a list of acts from here on. -/
def after (t : Timeline) (as : List Act) : Timeline := as.foldl act t

theorem after_withAddress (t : Timeline) (address? : Option Address) (as : List Act) :
    ∃ b?, (t.withAddress address?).after as = (t.after as).withAddress b? := by
  induction as generalizing t address? with
  | nil => exact ⟨address?, rfl⟩
  | cons a as ih =>
    obtain ⟨b?, hb⟩ := t.act_withAddress address? a
    obtain ⟨c?, hc⟩ := ih (t.act a) b?
    refine ⟨c?, ?_⟩
    rw [after, List.foldl_cons, hb]
    exact hc

/-- Whatever happens next to the two timelines, they differ in the address at most, their starts
go alike, and they are the same after a start that starts a loop. -/
structure GoesOnAs (u t : Timeline) : Prop where
  withAddress (as : List Act) :
    (u.after as).withAddress (t.after as).server.address? = t.after as
  task (as : List Act) (l : Launch) :
    ((u.after as).server.launch l).task = ((t.after as).server.launch l).task
  log (as : List Act) (l : Launch) :
    ((u.after as).server.launch l).log = ((t.after as).server.launch l).log
  start (as : List Act) (l : Launch) : Launches (t.after as) l →
    (u.after as).start l = (t.after as).start l

theorem goesOnAs_withAddress (t : Timeline) (address? : Option Address) :
    GoesOnAs (t.withAddress address?) t := by
  have hafter := t.after_withAddress address?
  refine ⟨fun as => ?_, fun as l => ?_, fun as l => ?_, fun as l hl => ?_⟩
  all_goals obtain ⟨b?, hb⟩ := hafter as
  · rw [hb]
    rfl
  · have htask := congrArg Launched.task ((t.after as).server.launch_withAddress b? l)
    rw [hb]
    exact htask
  · have hlog := congrArg Launched.log ((t.after as).server.launch_withAddress b? l)
    rw [hb]
    exact hlog
  · rw [hb]
    exact start_withAddress_of_launches hl b?

/-- A start leaves no trace. -/
structure ChangesNothing (t : Timeline) (l : Launch) : Prop where
  running : (t.start l).server.running = t.server.running
  address : (t.start l).server.address? = t.server.address?
  goesOn : GoesOnAs (t.start l) t

/-- A start that fails leaves the flag as it is, and everything goes on as if it had not been
tried. It leaves no trace at all exactly if it does not come to listen, or listens on the port of
the address that the server has. -/
theorem changesNothing_iff {e : ServerError}
    (h : (t.server.launch l).task = .completed (some e)) :
    (t.start l).server.running = t.server.running ∧ GoesOnAs (t.start l) t ∧
      (ChangesNothing t l ↔ ∀ port, t.server.listensOn? l = some port →
        t.server.address? = some (anyAddress port)) := by
  have hstart := start_eq_withAddress (t := t) (l := l) (by simp [h])
  have hgoesOn : GoesOnAs (t.start l) t := hstart ▸ t.goesOnAs_withAddress _
  have hrunning : (t.start l).server.running = t.server.running := by rw [hstart]; rfl
  have haddress : (t.start l).server.address? =
      t.server.addressAfter? l t.server.address? := by rw [hstart]; rfl
  refine ⟨hrunning, hgoesOn, ?_⟩
  have hsame : t.server.addressAfter? l t.server.address? = t.server.address? ↔
      ∀ port, t.server.listensOn? l = some port → t.server.address? = some (anyAddress port) := by
    unfold addressAfter?
    cases t.server.listensOn? l <;> simp [eq_comm]
  rw [← hsame, ← haddress]
  exact ⟨fun h => h.address, fun h => ⟨hrunning, h, hgoesOn⟩⟩

/-- A server that was not started yet. Its engine needs a poller, and the system chooses its
port. -/
def fresh : Timeline where
  server := (Server.ofConfig 1 { kind := .mayhem, port := 0 } {}).onConnection fun c =>
    { stream := c.stream }

/-- A system that has no thread for the loop. -/
def threadless : Launch :=
  { onPort 5000 with spawn := .error { kind := .wouldBlock } }

/-- A system that has no port. -/
def portless : Launch := { listen := fun _ => .error { kind := .addrInUse } }

/-- Without a thread the start leaves its address behind, until it is tried again on another
port. Without a port it leaves nothing. -/
theorem changesNothing_iff_threadless :
    ¬ChangesNothing fresh threadless ∧ ChangesNothing fresh portless ∧
      (fresh.start threadless).start (onPort 6000) = fresh.start (onPort 6000) := by
  have hthread := changesNothing_iff (t := fresh) (l := threadless)
    (e := .poll { kind := .wouldBlock }) rfl
  have hport := changesNothing_iff (t := fresh) (l := portless)
    (e := .bind fresh.server.config.port { kind := .addrInUse }) rfl
  refine ⟨fun h => ?_, hport.2.2.2 fun port h => ?_, hthread.2.1.start [] (onPort 6000) rfl⟩
  · have := hthread.2.2.1 h 5000 rfl
    contradiction
  · have : (none : Option Nat) = some port := h
    contradiction

/-- A system that has no poller. -/
def unprepared : Launch :=
  { onPort 5000 with prepare := .error (.poll { kind := .other }) }

/-- The start fails, and yet the server now has an address. -/
theorem not_changesNothing_unprepared :
    (fresh.server.launch unprepared).task = .completed (some (.poll { kind := .other })) ∧
      ¬ChangesNothing fresh unprepared ∧ fresh.server.address? = none ∧
      (fresh.start unprepared).server.address? = some (anyAddress 5000) := by
  refine ⟨rfl, fun h => ?_, rfl, rfl⟩
  have : some (anyAddress 5000) = none := h.address
  contradiction

end Timeline

end HttpServer.Server
