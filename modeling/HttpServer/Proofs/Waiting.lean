import HttpServer.Proofs.Finishing
import HttpServer.Proofs.Starting

/-!
# Servers that are waited for

Whoever stops a server and waits for its loop before starting it again gets what one expects of
a server. A history in which everybody does so, and in which a loop ends only because it was
stopped, is `Timeline.Sequential`.

In such a history the flag is raised exactly if a start has succeeded and no stop came since
(`Timeline.isUp_iff_started`). While it is raised the loop serves, and a loop that is alive
after a stop is one that the stop has found alive (`Timeline.Settled`), so that no loop is alive
when the next one is started. `Timeline.meetsPromises_of_sequential` is all that follows : what
every start is answered, what a wait gives, with what a loop answers connections, and that this
can go on for any number of starts.
-/

namespace HttpServer

/-- The system has all that a launch asks of it, except perhaps the port. -/
structure Launch.IsOrdinary (l : Launch) : Prop where
  prepare : l.prepare = .ok ()
  spawn : l.spawn = .ok ()

namespace Server

/-- The checks of a launch, in their order. -/
theorem task_launch {l : Launch} (h : l.IsOrdinary) (s : Server) :
    (s.launch l).task =
      if s.running then .completed (some .alreadyRunning)
      else if s.callback?.isNone then .completed (some .noCallback)
      else
        match l.listen s.config.port with
        | .error source => .completed (some (.bind s.config.port source))
        | .ok _ => .running := by
  unfold launch
  split
  · rfl
  · split
    · rfl
    · rcases l.listen s.config.port with source | port
      · rfl
      · simp only [h.prepare, h.spawn]

namespace Timeline

/-! ## Histories -/

/-- Nothing fails but listening, and no loop ends of its own accord. -/
def Act.IsOrdinary : Act → Prop
  | .onConnection _ | .stop | .look _ | .ends _ => True
  | .start l => l.IsOrdinary
  | .fails _ _ | .givesUp _ _ | .panics _ => False

/-- Nobody starts the server between a stop and the end of a loop that is to stop. -/
def Waits (s : Server) (as : List Act) : Prop :=
  ∀ ⦃as₁ as₂ l⦄, as₁ ++ .stop :: as₂ ++ [.start l] <+: as →
    ∀ i, Lives (run s as₁) i → ¬Lives (run s (as₁ ++ .stop :: as₂)) i

/-- One thing comes after the other. -/
structure Sequential (s : Server) (as : List Act) : Prop where
  ordinary : ∀ a ∈ as, a.IsOrdinary
  waits : Waits s as

/-- A start has succeeded, and no stop came since. -/
def Started (s : Server) (as : List Act) : Prop :=
  ∃ as₁ l as₂, as = as₁ ++ .start l :: as₂ ∧ Launches (run s as₁) l ∧ .stop ∉ as₂

variable {s : Server} {as as₁ as₂ : List Act} {t : Timeline} {a : Act} {l : Launch} {i : Nat}
  {p : LoopPhase}

theorem not_lives_nil (s : Server) (i : Nat) : ¬Lives (run s []) i := by
  rintro ⟨p, hp, -⟩
  contradiction

theorem Sequential.nil (s : Server) : Sequential s [] where
  ordinary _ ha := absurd ha List.not_mem_nil
  waits _ _ _ h := by simp at h

theorem Sequential.of_prefix (h : Sequential s as) (hpre : as₁ <+: as) : Sequential s as₁ where
  ordinary a ha := h.ordinary a (hpre.subset ha)
  waits _ _ _ hstart := h.waits (hstart.trans hpre)

theorem Sequential.of_concat (h : Sequential s (as ++ [a])) : Sequential s as ∧ a.IsOrdinary :=
  ⟨h.of_prefix (List.prefix_append _ _), h.ordinary a (List.mem_append_right _ List.mem_cons_self)⟩

/-- Everything may come next, but a start only if no loop is alive. -/
theorem Sequential.concat (h : Sequential s as) (ha : a.IsOrdinary)
    (hstart : ∀ l, a = .start l → ∀ i, ¬Lives (run s as) i) : Sequential s (as ++ [a]) where
  ordinary b hb := by
    rcases List.mem_append.1 hb with hb | hb
    · exact h.ordinary b hb
    · rwa [List.mem_singleton.1 hb]
  waits as₁ as₂ l hpre i _ := by
    rcases List.prefix_concat_iff.1 hpre with heq | hpre
    · obtain ⟨rfl, hlast⟩ := List.append_inj' heq rfl
      exact hstart l (List.singleton_inj.1 hlast).symm i
    · exact h.waits hpre i ‹_›

theorem started_concat : Started s (as ++ [a]) ↔
    (∃ l, a = .start l ∧ Launches (run s as) l) ∨ a ≠ .stop ∧ Started s as := by
  constructor
  · rintro ⟨as₁, l, as₂, heq, hl, hstop⟩
    rcases List.eq_nil_or_concat as₂ with rfl | ⟨as₂, b, rfl⟩
    · obtain ⟨rfl, hlast⟩ := List.append_inj' heq rfl
      exact .inl ⟨l, List.singleton_inj.1 hlast, hl⟩
    · rw [List.concat_eq_append] at heq hstop
      rw [← List.cons_append, ← List.append_assoc] at heq
      obtain ⟨rfl, hlast⟩ := List.append_inj' heq rfl
      obtain rfl := List.singleton_inj.1 hlast
      refine .inr ⟨?_, as₁, l, as₂, rfl, hl, fun hmem => hstop (List.mem_append_left _ hmem)⟩
      rintro rfl
      exact hstop (List.mem_append_right _ List.mem_cons_self)
  · rintro (⟨l, rfl, hl⟩ | ⟨hne, as₁, l, as₂, rfl, hl, hstop⟩)
    · exact ⟨as, l, [], rfl, hl, nofun⟩
    · refine ⟨as₁, l, as₂ ++ [a], by simp, hl, fun hmem => ?_⟩
      rcases List.mem_append.1 hmem with hmem | hmem
      · exact hstop hmem
      · exact hne (List.mem_singleton.1 hmem).symm

/-! ## What an act can do -/

theorem not_isUp_of_launches (h : Launches t l) : ¬IsUp t := by
  have hlaunch := t.server.launch_running l
  unfold Launches at h
  rw [if_pos h] at hlaunch
  simp [IsUp, hlaunch.1]

/-- The act makes a loop that has returned come to its end. -/
def Act.Ends (t : Timeline) (a : Act) : Prop :=
  ∃ i e?, a = .ends i ∧ t.loops[i]? = some (.returned e?)

theorem isUp_act_iff (h : a.IsOrdinary) : IsUp (t.act a) ↔
    (∃ l, a = .start l ∧ Launches t l) ∨ IsUp t ∧ a ≠ .stop ∧ ¬a.Ends t := by
  cases a with
  | onConnection callback => simp [IsUp, act, Server.onConnection, Act.Ends]
  | start l =>
    have hlaunch := t.server.launch_running l
    by_cases hl : (t.server.launch l).task = .running
    · rw [if_pos hl] at hlaunch
      exact iff_of_true hlaunch.2 (.inl ⟨l, rfl, hl⟩)
    · rw [if_neg hl] at hlaunch
      simp [IsUp, act, start, hlaunch, Launches, hl, Act.Ends]
  | stop => simp [IsUp, act, stop, Server.stop]
  | look i =>
    have hsame : (t.look i).server = t.server := by
      unfold look
      split
      · split <;> rfl
      · rfl
    simp [IsUp, act, hsame, Act.Ends]
  | ends i =>
    simp only [IsUp, act, ends]
    split
    · rename_i e? hi
      have hends : (Act.ends i).Ends t := ⟨i, e?, rfl, hi⟩
      simp [hends, loopEnds, Server.stop]
    · rename_i hi
      have hends : ¬(Act.ends i).Ends t := by
        rintro ⟨_, e?, ⟨⟩, hj⟩
        exact hi e? hj
      simp [hends]
  | fails | givesUp | panics => cases h

/-- How a loop can have come to be in a phase. -/
inductive Comes (t : Timeline) (a : Act) (i : Nat) : LoopPhase → Prop where
  /-- It was so before. -/
  | was {p : LoopPhase} : t.loops[i]? = some p → Comes t a i p
  /-- It was started. -/
  | started {l : Launch} : a = .start l → Launches t l → i = t.loops.length → Comes t a i .serving
  /-- It found the flag lowered. -/
  | stopped : a = .look i → Serves t i → ¬IsUp t → Comes t a i (.returned none)
  /-- It had returned. -/
  | ended {e? : Option ServerError} : a = .ends i → t.loops[i]? = some (.returned e?) →
    Comes t a i (.ended (.returned e?))

theorem eq_or_of_set {loops : List LoopPhase} {j : Nat} {p' : LoopPhase}
    (h : (loops.set j p')[i]? = some p) : (j = i ∧ p' = p) ∨ loops[i]? = some p := by
  rw [List.getElem?_set] at h
  split at h
  · rename_i hji
    split at h
    · exact .inl ⟨hji, Option.some.inj h⟩
    · contradiction
  · exact .inr h

theorem comes_of_isOrdinary (h : a.IsOrdinary) (hp : (t.act a).loops[i]? = some p) :
    Comes t a i p := by
  cases a with
  | onConnection | stop => exact .was hp
  | start l =>
    unfold act start at hp
    dsimp only at hp
    split at hp
    · rename_i hl
      rw [List.getElem?_append] at hp
      split at hp
      · exact .was hp
      · rw [List.getElem?_singleton] at hp
        split at hp
        · cases hp
          exact .started rfl hl (by omega)
        · contradiction
    · exact .was hp
  | look j =>
    unfold act look at hp
    dsimp only at hp
    split at hp
    · rename_i hj
      split at hp
      · exact .was hp
      · rename_i hlow
        rcases eq_or_of_set hp with ⟨rfl, rfl⟩ | hold
        · exact .stopped rfl hj hlow
        · exact .was hold
    · exact .was hp
  | ends j =>
    unfold act ends at hp
    dsimp only at hp
    split at hp
    · rename_i e? hj
      rcases eq_or_of_set hp with ⟨rfl, rfl⟩ | hold
      · exact .ended rfl hj
      · exact .was hold
    · exact .was hp
  | fails | givesUp | panics => cases h

/-! ## The flag and the loops -/

/-- While the flag is raised all loops that are alive serve. While it is lowered they are loops
that a stop has found alive. -/
structure Settled (s : Server) (as : List Act) : Prop where
  serves : IsUp (run s as) → ∀ i, Lives (run s as) i → Serves (run s as) i
  stopped : ¬IsUp (run s as) → ∀ i, Lives (run s as) i →
    ∃ as₁ as₂, as = as₁ ++ .stop :: as₂ ∧ Lives (run s as₁) i

/-- The next loop is started when no other one is alive. -/
theorem Settled.not_lives (h : Settled s as) (hseq : Sequential s (as ++ [.start l]))
    (hlow : ¬IsUp (run s as)) (i : Nat) : ¬Lives (run s as) i := by
  intro hi
  obtain ⟨as₁, as₂, rfl, hi₁⟩ := h.stopped hlow i hi
  exact hseq.waits (List.prefix_refl _) i hi₁ hi

/-- No loop has returned while the flag is raised. -/
theorem Settled.not_ends (h : Settled s as) (hup : IsUp (run s as)) : ¬a.Ends (run s as) := by
  rintro ⟨i, e?, -, hi⟩
  cases (h.serves hup i ⟨_, hi, rfl⟩).symm.trans hi

theorem length_lt_of_launches (h : Launches (run s as) l) :
    (run s as).loops.length < (run s (as ++ [.start l])).loops.length := by
  have hloops : ((run s as).act (.start l)).loops = (run s as).loops ++ [.serving] := if_pos h
  rw [run_concat, hloops, List.length_append]
  exact Nat.lt_succ_self _

theorem Settled.concat (h : Settled s as) (hseq : Sequential s (as ++ [a])) :
    Settled s (as ++ [a]) := by
  have ha := hseq.of_concat.2
  constructor
  · intro hup i ⟨p, hp, halive⟩
    rw [run_concat] at hup hp ⊢
    rcases (isUp_act_iff ha).1 hup with ⟨l, rfl, hl⟩ | ⟨hup, -, -⟩
    · cases comes_of_isOrdinary ha hp with
      | was hold => exact absurd ⟨p, hold, halive⟩ (h.not_lives hseq (not_isUp_of_launches hl) i)
      | started => exact hp
      | stopped hlook => cases hlook
      | ended => contradiction
    · cases comes_of_isOrdinary ha hp with
      | was hold =>
        have hserves := h.serves hup i ⟨p, hold, halive⟩
        obtain rfl : .serving = p := Option.some.inj (hserves.symm.trans hold)
        exact hp
      | started => exact hp
      | stopped _ _ hlow => exact absurd hup hlow
      | ended => contradiction
  · intro hlow i hi
    rw [run_concat] at hlow hi
    have hold : Lives (run s as) i := by
      rcases lives_of_effect (effect _ a) hi with hold | ⟨-, l, hstart, hl⟩
      · exact hold
      · exact absurd ((isUp_act_iff ha).2 (.inl ⟨l, hstart, hl⟩)) hlow
    by_cases hup : IsUp (run s as)
    · -- No loop has returned that could lower the flag at its end, so this must be a stop.
      by_cases hstop : a = .stop
      · exact ⟨as, [], by rw [hstop], hold⟩
      · exact absurd ((isUp_act_iff ha).2 (.inr ⟨hup, hstop, h.not_ends hup⟩)) hlow
    · obtain ⟨as₁, as₂, rfl, hi₁⟩ := h.stopped hup i hold
      exact ⟨as₁, as₂ ++ [a], by simp, hi₁⟩

theorem Sequential.settled (h : Sequential s as) : Settled s as := by
  induction as using List.reverseRecOn with
  | nil =>
    exact ⟨fun _ i hi => absurd hi (not_lives_nil s i), fun _ i hi => absurd hi (not_lives_nil s i)⟩
  | append_singleton as a ih => exact (ih h.of_concat.1).concat h

/-- Every loop is started when no other one is alive. -/
theorem Sequential.patient (h : Sequential s as) : Patient s as := fun _ _ hpre hl =>
  (h.of_prefix ((List.prefix_append _ _).trans hpre)).settled.not_lives (h.of_prefix hpre)
    (not_isUp_of_launches hl)

/-- The flag is raised exactly between a start that succeeds and the next stop. -/
theorem isUp_iff_started (hs : s.running = false) (h : Sequential s as) :
    IsUp (run s as) ↔ Started s as := by
  induction as using List.reverseRecOn with
  | nil =>
    refine iff_of_false (fun hup => ?_) ?_
    · have := hs.symm.trans hup
      contradiction
    · rintro ⟨as₁, l, as₂, heq, -⟩
      simp at heq
  | append_singleton as a ih =>
    obtain ⟨hbefore, ha⟩ := h.of_concat
    rw [run_concat, isUp_act_iff ha, started_concat, ← ih hbefore]
    exact or_congr_right ⟨fun ⟨hup, hstop, _⟩ => ⟨hstop, hup⟩,
      fun ⟨hstop, hup⟩ => ⟨hup, hstop, hbefore.settled.not_ends hup⟩⟩

/-! ## Answers to starts -/

/-- What an act sets to answer connections. -/
def Act.callback? : Act → Option Callback
  | .onConnection callback => some callback
  | _ => none

/-- What was set last to answer connections. -/
def lastCallback? (as : List Act) : Option Callback := (as.filterMap Act.callback?).getLast?

/-- An act changes what answers connections, the address and the flag at most. -/
theorem server_act (t : Timeline) (a : Act) : (t.act a).server = { t.server with
    callback? := a.callback?.or t.server.callback?
    address? := (t.act a).server.address?
    running := (t.act a).server.running } := by
  cases a with
  | onConnection | stop => rfl
  | start l =>
    have hserver := t.server.launch_server l
    have haddress := congrArg Server.address? hserver
    unfold act start
    dsimp only
    rw [haddress]
    exact hserver
  | look i =>
    unfold act look
    dsimp only
    split
    · split <;> rfl
    · rfl
  | fails i e =>
    unfold act fails
    dsimp only
    split <;> rfl
  | givesUp i e =>
    unfold act givesUp
    dsimp only
    split <;> rfl
  | panics i =>
    unfold act panics
    dsimp only
    split <;> rfl
  | ends i =>
    unfold act ends
    dsimp only
    split <;> rfl

theorem config_run (s : Server) (as : List Act) : (run s as).server.config = s.config := by
  induction as using List.reverseRecOn with
  | nil => rfl
  | append_singleton as a ih =>
    rw [run_concat, server_act]
    exact ih

theorem callback?_run (hs : s.callback? = none) (as : List Act) :
    (run s as).server.callback? = lastCallback? as := by
  unfold lastCallback?
  induction as using List.reverseRecOn with
  | nil => exact hs
  | append_singleton as a ih =>
    rw [run_concat, server_act, List.filterMap_append, List.getLast?_append]
    change a.callback?.or (run s as).server.callback? = _
    rw [ih]
    cases h : a.callback? <;> simp [h]

theorem lastCallback?_eq_none_iff :
    lastCallback? as = none ↔ ∀ callback, .onConnection callback ∉ as := by
  unfold lastCallback?
  rw [List.getLast?_eq_none_iff, List.filterMap_eq_nil_iff]
  refine ⟨fun h callback hmem => absurd (h _ hmem) nofun, fun h a ha => ?_⟩
  cases a with
  | onConnection callback => exact absurd ha (h callback)
  | _ => rfl

/-- The answer to a start that comes next. -/
structure Answered (s : Server) (as : List Act) (l : Launch) (task : ServerTask) : Prop where
  alreadyRunning_iff : task = .completed (some .alreadyRunning) ↔ Started s as
  noCallback_iff : task = .completed (some .noCallback) ↔
    ¬Started s as ∧ ∀ callback, .onConnection callback ∉ as
  bind_iff (port : Nat) (source : IoError) : task = .completed (some (.bind port source)) ↔
    ¬Started s as ∧ (∃ callback, .onConnection callback ∈ as) ∧ port = s.config.port ∧
      l.listen port = .error source
  running_iff : task = .running ↔
    ¬Started s as ∧ (∃ callback, .onConnection callback ∈ as) ∧
      ∃ port, l.listen s.config.port = .ok port

theorem answered_of_sequential (hs : s.running = false) (hs' : s.callback? = none)
    (h : Sequential s (as ++ [.start l])) :
    Answered s as l ((run s as).server.launch l).task := by
  obtain ⟨hbefore, hl⟩ := h.of_concat
  have hup : (run s as).server.running = true ↔ Started s as := isUp_iff_started hs hbefore
  have hset : (run s as).server.callback?.isNone = true ↔
      ∀ callback, .onConnection callback ∉ as := by
    rw [callback?_run hs', Option.isNone_iff_eq_none, lastCallback?_eq_none_iff]
  have hset' : (∃ callback, .onConnection callback ∈ as) ↔
      ¬∀ callback, .onConnection callback ∉ as := by simp
  have htask := task_launch hl (run s as).server
  rw [config_run] at htask
  rw [htask]
  -- The cases are the checks of a launch, each with the history that decides it.
  by_cases hstarted : Started s as
  · rw [if_pos (hup.2 hstarted)]
    constructor <;> simp [hstarted]
  rw [if_neg (mt hup.1 hstarted)]
  by_cases hnone : ∀ callback, .onConnection callback ∉ as
  · rw [if_pos (hset.2 hnone)]
    constructor <;> simp [hstarted, hnone]
  rw [if_neg (mt hset.1 hnone)]
  rcases hport : l.listen s.config.port with source | port
  · constructor
    · simp [hstarted]
    · simp [hnone]
    · intro port' source'
      rw [hset']
      simp only [ServerTask.completed.injEq, Option.some.injEq, ServerError.bind.injEq, hstarted,
        hnone, not_false_eq_true, true_and]
      constructor
      · rintro ⟨rfl, rfl⟩
        exact ⟨rfl, hport⟩
      · rintro ⟨rfl, hport'⟩
        cases hport.symm.trans hport'
        exact ⟨rfl, rfl⟩
    · simp [hport]
  · constructor
    · simp [hstarted]
    · simp [hnone]
    · intro port' source'
      refine iff_of_false nofun ?_
      rintro ⟨-, -, rfl, hport'⟩
      cases hport.symm.trans hport'
    · rw [hset']
      simp [hstarted, hnone, hport]

/-! ## What answers connections -/

/-- What the loop that an act starts answers connections with. The loop keeps what the server has
at that time. -/
def hired? (t : Timeline) : Act → Option Callback
  | .start l => if (t.server.launch l).task = .running then t.server.callback? else none
  | _ => none

/-- What the loops that come to be started answer connections with, in the order of their
starts. -/
def callbacks (t : Timeline) : List Act → List Callback
  | [] => []
  | a :: as => (t.hired? a).toList ++ (t.act a).callbacks as

theorem callbacks_append (t : Timeline) (as as' : List Act) :
    t.callbacks (as ++ as') = t.callbacks as ++ (t.after as).callbacks as' := by
  induction as generalizing t with
  | nil => rfl
  | cons a as ih =>
    rw [List.cons_append, callbacks, callbacks, ih, List.append_assoc]
    rfl

theorem hired?_of_launches (h : Launches t l) : ∃ callback,
    t.server.callback? = some callback ∧ t.hired? (.start l) = some callback := by
  obtain ⟨port, hport⟩ := exists_listensOn? h
  unfold listensOn? at hport
  split at hport
  · contradiction
  · rename_i hset
    rcases hcallback : t.server.callback? with _ | callback
    · exact absurd (.inr (by rw [hcallback]; rfl)) hset
    · exact ⟨callback, rfl, (if_pos h).trans hcallback⟩

/-- Every loop has something to answer connections with. -/
theorem length_loops_act (t : Timeline) (a : Act) :
    (t.act a).loops.length = t.loops.length + (t.hired? a).toList.length := by
  by_cases hstart : ∃ l, a = .start l
  · obtain ⟨l, rfl⟩ := hstart
    by_cases hl : Launches t l
    · obtain ⟨callback, -, hhired⟩ := hired?_of_launches hl
      have hloops : (t.act (.start l)).loops = t.loops ++ [.serving] := if_pos hl
      rw [hloops, hhired, List.length_append]
      rfl
    · have hloops : (t.act (.start l)).loops = t.loops := if_neg hl
      have hhired : t.hired? (.start l) = none := if_neg hl
      rw [hloops, hhired]
      rfl
  · have hhired : t.hired? a = none := by
      cases a with
      | start l => exact absurd ⟨l, rfl⟩ hstart
      | _ => rfl
    rw [hhired]
    have heffect := effect t a
    generalize t.act a = u at heffect
    cases heffect with
    | rests | stops => rfl
    | launches ha => exact absurd ⟨_, ha⟩ hstart
    | goesOn => exact List.length_set ..

theorem length_callbacks (t : Timeline) (as : List Act) :
    (t.after as).loops.length = t.loops.length + (t.callbacks as).length := by
  induction as generalizing t with
  | nil => rfl
  | cons a as ih =>
    rw [callbacks, List.length_append, ← Nat.add_assoc, ← length_loops_act, ← ih]
    rfl

/-- A loop answers with what was set last before its start. -/
theorem callback_of_launches (hs : s.callback? = none) (hl : Launches (run s as₁) l) :
    ∃ callback, lastCallback? as₁ = some callback ∧
      (callbacks { server := s } (as₁ ++ .start l :: as₂))[(run s as₁).loops.length]? =
        some callback := by
  obtain ⟨callback, hcallback, hhired⟩ := hired?_of_launches hl
  rw [callback?_run hs] at hcallback
  have hlen : (run s as₁).loops.length = (callbacks { server := s } as₁).length :=
    (length_callbacks { server := s } as₁).trans (Nat.zero_add _)
  refine ⟨callback, hcallback, ?_⟩
  rw [callbacks_append, callbacks, hlen, List.getElem?_append_right (Nat.le_refl _), Nat.sub_self]
  change (((run s as₁).hired? (.start l)).toList ++ _)[0]? = _
  rw [hhired]
  rfl

/-! ## Loops that are stopped -/

theorem phase_of_isOrdinary (h : ∀ a ∈ as, a.IsOrdinary) (hp : (run s as).loops[i]? = some p) :
    p = .serving ∨ p = .returned none ∨ p = .ended (.returned none) := by
  induction as using List.reverseRecOn generalizing p with
  | nil => contradiction
  | append_singleton as a ih =>
    have hbefore : ∀ b ∈ as, b.IsOrdinary := fun b hb => h b (List.mem_append_left _ hb)
    rw [run_concat] at hp
    cases comes_of_isOrdinary (h a (List.mem_append_right _ List.mem_cons_self)) hp with
    | was hold => exact ih hbefore hold
    | started => exact .inl rfl
    | stopped => exact .inr (.inl rfl)
    | @ended e? _ hold =>
      obtain rfl : e? = none := by simpa using ih hbefore hold
      exact .inr (.inr rfl)

theorem lt_length_of_isPrefix (hpre : as₁ <+: as) (hi : i < (run s as₁).loops.length) :
    i < (run s as).loops.length :=
  Nat.lt_of_lt_of_le hi <| length_le_of_prefix hpre

/-- What no act brings about is not brought about by a run. -/
theorem of_prefix {Q : Timeline → Prop}
    (hact : ∀ ⦃t a⦄, i < t.loops.length → Q (t.act a) → Q t) (hpre : as₁ <+: as)
    (hi : i < (run s as₁).loops.length) (h : Q (run s as)) : Q (run s as₁) := by
  induction as using List.reverseRecOn with
  | nil => rwa [List.prefix_nil.1 hpre]
  | append_singleton as a ih =>
    rcases List.prefix_concat_iff.1 hpre with rfl | hpre
    · exact h
    · rw [run_concat] at h
      exact ih hpre (hact (lt_length_of_isPrefix hpre hi) h)

theorem serves_of_isPrefix (hpre : as₁ <+: as) (hi : i < (run s as₁).loops.length)
    (h : Serves (run s as) i) : Serves (run s as₁) i :=
  of_prefix (Q := (Serves · i)) (fun t a hlt h => serves_of_effect (effect t a) h hlt) hpre hi h

theorem lives_of_isPrefix (hpre : as₁ <+: as) (hi : i < (run s as₁).loops.length)
    (h : Lives (run s as) i) : Lives (run s as₁) i := by
  refine of_prefix (Q := (Lives · i)) (fun t a hlt h => ?_) hpre hi h
  rcases lives_of_effect (effect t a) h with hold | ⟨rfl, -⟩
  · exact hold
  · exact absurd hlt (Nat.lt_irrefl _)

theorem look_eq (h : Serves t i) (hlow : ¬IsUp t) :
    t.look i = { t with loops := t.loops.set i (.returned none) } := by
  unfold look
  rw [h]
  exact if_neg hlow

theorem look_of_serves (h : Serves t i) (hlow : ¬IsUp t) :
    (t.look i).loops[i]? = some (.returned none) := by
  rw [look_eq h hlow]
  exact List.getElem?_set_self (List.getElem?_eq_some_iff.1 h).1

theorem ends_eq {e? : Option ServerError} (h : t.loops[i]? = some (.returned e?)) :
    (t.ends i).1 = { server := t.server.stop, loops := t.loops.set i (.ended (.returned e?)) } := by
  unfold ends
  rw [h]
  rfl

theorem ends_of_returned {e? : Option ServerError} (h : t.loops[i]? = some (.returned e?)) :
    (t.ends i).1.loops[i]? = some (.ended (.returned e?)) := by
  rw [ends_eq h]
  exact List.getElem?_set_self (List.getElem?_eq_some_iff.1 h).1

/-- A loop that looks at the flag after a stop serves no more, from then on. -/
theorem Sequential.not_serves (h : Sequential s as)
    (hpre : as₁ ++ .stop :: as₂ ++ [.look i] <+: as) (hi : i < (run s as₁).loops.length) :
    ¬Serves (run s as) i := by
  intro hserves
  have hstop := List.prefix_append as₁ (.stop :: as₂)
  have hlook := List.prefix_append (as₁ ++ .stop :: as₂) [.look i]
  have hlt := lt_length_of_isPrefix hstop hi
  have hafter := serves_of_isPrefix hpre (lt_length_of_isPrefix hlook hlt) hserves
  have hbefore := serves_of_isPrefix hlook hlt hafter
  have hlow := h.patient.heedsStops (hlook.trans hpre) (serves_of_isPrefix hstop hi hbefore) hbefore
  rw [run_concat] at hafter
  cases hafter.symm.trans (look_of_serves hbefore hlow)

/-- A loop that serves no more and comes to its end has ended with success, from then on. -/
theorem Sequential.ended (h : Sequential s as) (hpre : as₁ ++ [.ends i] <+: as)
    (hi : i < (run s as₁).loops.length) (hserves : ¬Serves (run s as₁) i) :
    (run s as).loops[i]? = some (.ended (.returned none)) := by
  have hends := h.of_prefix hpre
  have hlt := lt_length_of_isPrefix (List.prefix_append as₁ [.ends i]) hi
  have hdead : ¬Lives (run s (as₁ ++ [.ends i])) i := by
    rintro ⟨p, hp, halive⟩
    rw [run_concat] at hp
    cases comes_of_isOrdinary hends.of_concat.2 hp with
    | was hold =>
      rcases phase_of_isOrdinary hends.of_concat.1.ordinary hold with rfl | rfl | rfl
      · exact hserves hold
      · cases hp.symm.trans (ends_of_returned hold)
      · contradiction
    | started hstart => cases hstart
    | stopped hlook => cases hlook
    | ended => contradiction
  have hphase := List.getElem?_eq_getElem (lt_length_of_isPrefix hpre hlt)
  rcases phase_of_isOrdinary h.ordinary hphase with hp | hp | hp
  · exact absurd (lives_of_isPrefix hpre hlt ⟨_, hphase, by rw [hp]; rfl⟩) hdead
  · exact absurd (lives_of_isPrefix hpre hlt ⟨_, hphase, by rw [hp]; rfl⟩) hdead
  · rw [hphase, hp]

/-- A loop that looks at the flag after a stop and then comes to its end has ended with success,
whatever happens besides. -/
theorem Sequential.ended_of_sublist (h : Sequential s (as₁ ++ as₂))
    (hi : i < (run s as₁).loops.length) (hsub : [.stop, .look i, .ends i].Sublist as₂) :
    (run s (as₁ ++ as₂)).loops[i]? = some (.ended (.returned none)) := by
  obtain ⟨l₁, l₂, rfl, hstop, hsub₂⟩ := List.cons_sublist_iff.1 hsub
  obtain ⟨l₃, l₄, rfl, hlook, hsub₄⟩ := List.cons_sublist_iff.1 hsub₂
  obtain ⟨u₁, u₂, rfl⟩ := List.append_of_mem hstop
  obtain ⟨v₁, v₂, rfl⟩ := List.append_of_mem hlook
  obtain ⟨w₁, w₂, rfl⟩ := List.append_of_mem (List.singleton_sublist.1 hsub₄)
  have hlt (bs : List Act) := lt_length_of_isPrefix (List.prefix_append as₁ bs) hi
  -- The history up to the end of the loop, and up to its look at the flag.
  have hends : as₁ ++ (u₁ ++ .stop :: u₂ ++ (v₁ ++ .look i :: v₂ ++ w₁)) ++ [.ends i] <+:
      as₁ ++ (u₁ ++ .stop :: u₂ ++ (v₁ ++ .look i :: v₂ ++ (w₁ ++ .ends i :: w₂))) :=
    ⟨w₂, by simp⟩
  have hlooks : as₁ ++ u₁ ++ .stop :: (u₂ ++ v₁) ++ [.look i] <+:
      as₁ ++ (u₁ ++ .stop :: u₂ ++ (v₁ ++ .look i :: v₂ ++ w₁)) :=
    ⟨v₂ ++ w₁, by simp⟩
  have hbefore := h.of_prefix ((List.prefix_append _ _).trans hends)
  exact h.ended hends (hlt _) (hbefore.not_serves hlooks (hlt u₁))

/-! ## Starts without end -/

/-- A server is given something to answer connections with, started, stopped and waited for. Its
loop has the number `i`. -/
def round (i : Nat) (callback : Callback) (l : Launch) : List Act :=
  [.onConnection callback, .start l, .stop, .look i, .ends i]

/-- Rounds, one after the other. -/
def rounds (i : Nat) : List (Callback × Launch) → List Act
  | [] => []
  | (callback, l) :: rest => round i callback l ++ rounds (i + 1) rest

/-- No loop is alive, and the flag is lowered. -/
structure AtRest (t : Timeline) : Prop where
  low : ¬IsUp t
  dead (i : Nat) : ¬Lives t i

variable {port : Nat}

theorem Sequential.append_round (h : Sequential s as) (hrest : AtRest (run s as))
    (hl : l.IsOrdinary) (i : Nat) (callback : Callback) :
    Sequential s (as ++ round i callback l) := by
  have hset : Sequential s (as ++ [.onConnection callback]) :=
    h.concat trivial fun _ heq => by cases heq
  have hstart : Sequential s (as ++ [.onConnection callback] ++ [.start l]) := by
    refine hset.concat hl fun _ _ i hi => hrest.dead i ?_
    rwa [run_concat] at hi
  have hstop := hstart.concat (a := .stop) trivial fun _ heq => by cases heq
  have hlook := hstop.concat (a := .look i) trivial fun _ heq => by cases heq
  have hends := hlook.concat (a := .ends i) trivial fun _ heq => by cases heq
  simpa [round] using hends

theorem AtRest.launches (hrest : AtRest t) (hl : l.IsOrdinary)
    (hport : l.listen t.server.config.port = .ok port) (callback : Callback) :
    Launches (t.act (.onConnection callback)) l := by
  have hlow : ¬t.server.running = true := hrest.low
  unfold Launches
  rw [task_launch hl]
  simp [act, Server.onConnection, hlow, hport]

/-- The loop of a round has ended with success when the round is over. -/
theorem after_round_eq {callback : Callback}
    (hlaunch : Launches (t.act (.onConnection callback)) l) :
    ∃ server : Server, server.running = false ∧ t.after (round t.loops.length callback l) =
      { server, loops := t.loops ++ [.ended (.returned none)] } := by
  obtain ⟨u, hu⟩ : ∃ u, u = ((t.act (.onConnection callback)).act (.start l)).stop := ⟨_, rfl⟩
  have hloops : u.loops = t.loops ++ [.serving] := hu ▸ if_pos hlaunch
  have hlow : ¬IsUp u := hu ▸ Bool.false_ne_true
  have hserves : Serves u t.loops.length := by
    rw [Serves, hloops, List.getElem?_concat_length]
  have hafter : t.after (round t.loops.length callback l) =
      ((u.look t.loops.length).ends t.loops.length).1 := by rw [hu]; rfl
  have hended : (u.loops.set t.loops.length (.returned none)).set t.loops.length
      (.ended (.returned none)) = t.loops ++ [.ended (.returned none)] := by
    rw [hloops]
    simp
  rw [hafter, ends_eq (look_of_serves hserves hlow), look_eq hserves hlow]
  exact ⟨u.server.stop, rfl, congrArg (Timeline.mk u.server.stop) hended⟩

/-- A round comes back to rest, with one more loop that has ended with success. -/
theorem AtRest.after_round (hrest : AtRest t) (hl : l.IsOrdinary)
    (hport : l.listen t.server.config.port = .ok port) (callback : Callback) :
    AtRest (t.after (round t.loops.length callback l)) ∧
      (t.after (round t.loops.length callback l)).loops = t.loops ++ [.ended (.returned none)] ∧
      t.callbacks (round t.loops.length callback l) = [callback] := by
  have hlaunch := hrest.launches hl hport callback
  have hhired : (t.act (.onConnection callback)).hired? (.start l) = some callback := if_pos hlaunch
  obtain ⟨server, hlow, heq⟩ := after_round_eq hlaunch
  rw [heq]
  refine ⟨⟨by simp [IsUp, hlow], fun i ⟨p, hp, halive⟩ => ?_⟩, rfl, ?_⟩
  · dsimp only at hp
    rw [List.getElem?_append] at hp
    split at hp
    · exact hrest.dead i ⟨p, hp, halive⟩
    · rw [List.getElem?_singleton] at hp
      split at hp
      · cases hp
        contradiction
      · contradiction
  · change ((t.act (.onConnection callback)).hired? (.start l)).toList ++ [] = [callback]
    rw [hhired]
    rfl

/-- Rounds, as many as one likes. -/
theorem Sequential.append_rounds (h : Sequential s as) (hrest : AtRest (run s as))
    {rs : List (Callback × Launch)}
    (hrs : ∀ r ∈ rs, r.2.IsOrdinary ∧ ∃ port, r.2.listen s.config.port = .ok port) :
    let as' := as ++ rounds (run s as).loops.length rs
    Sequential s as' ∧
      (run s as').loops = (run s as).loops ++ rs.map (fun _ => .ended (.returned none)) ∧
      callbacks { server := s } as' = callbacks { server := s } as ++ rs.map Prod.fst := by
  induction rs generalizing as with
  | nil => simpa [rounds] using h
  | cons r rs ih =>
    obtain ⟨callback, l⟩ := r
    obtain ⟨⟨hl, port, hport⟩, hrs⟩ := List.forall_mem_cons.1 hrs
    have hround : run s (as ++ round (run s as).loops.length callback l) =
        (run s as).after (round (run s as).loops.length callback l) := List.foldl_append
    obtain ⟨hrest', hloops, hcallbacks⟩ := hrest.after_round hl (by rwa [config_run]) callback
    rw [← hround] at hrest' hloops
    have hlen : (run s (as ++ round (run s as).loops.length callback l)).loops.length =
        (run s as).loops.length + 1 := by rw [hloops, List.length_append, List.length_singleton]
    obtain ⟨hseq, hall, hcalls⟩ :=
      ih (h.append_round hrest hl (run s as).loops.length callback) hrest' hrs
    rw [hlen, List.append_assoc] at hseq hall hcalls
    refine ⟨hseq, ?_, ?_⟩
    · rw [rounds, hall, hloops]
      simp
    · rw [rounds, hcalls, callbacks_append]
      change callbacks { server := s } as ++ (run s as).callbacks _ ++ _ = _
      rw [hcallbacks]
      simp

/-! ## All together -/

/-- What one expects of a server. -/
structure MeetsPromises (s : Server) (as : List Act) : Prop where
  /-- The flag is raised exactly between a start that succeeds and the next stop. -/
  isUp_iff : IsUp (run s as) ↔ Started s as
  /-- The answer to a start that may come next. -/
  answered (l : Launch) : Sequential s (as ++ [.start l]) →
    Answered s as l ((run s as).server.launch l).task
  /-- A wait for a loop that was started gives success. It comes to its end when the loop was
  stopped, has looked at the flag since, and has then come to its end. -/
  joined ⦃as₁ as₂ : List Act⦄ ⦃l : Launch⦄ : as = as₁ ++ .start l :: as₂ → Launches (run s as₁) l →
    let i := (run s as₁).loops.length
    (∀ how, (run s as).loops[i]? = some (.ended how) →
      ((run s as₁).server.launch l).task.join how = none) ∧
    ([.stop, .look i, .ends i].Sublist as₂ → ∃ how, (run s as).loops[i]? = some (.ended how))
  /-- The loop answers connections with what was set last before its start. -/
  delivers ⦃as₁ as₂ : List Act⦄ ⦃l : Launch⦄ : as = as₁ ++ .start l :: as₂ →
    Launches (run s as₁) l → ∃ callback, lastCallback? as₁ = some callback ∧
      (callbacks { server := s } as)[(run s as₁).loops.length]? = some callback
  /-- A server that was stopped and waited for, or was not started yet, can be started any number
  of times. -/
  restarts (rs : List (Callback × Launch)) : ¬Started s as → (∀ i, ¬Lives (run s as) i) →
    (∀ r ∈ rs, r.2.IsOrdinary ∧ ∃ port, r.2.listen s.config.port = .ok port) →
    let as' := as ++ rounds (run s as).loops.length rs
    Sequential s as' ∧
      (run s as').loops = (run s as).loops ++ rs.map (fun _ => .ended (.returned none)) ∧
      callbacks { server := s } as' = callbacks { server := s } as ++ rs.map Prod.fst

/-- A server of whatever engine meets its promises as long as everybody waits. -/
theorem meetsPromises_of_sequential (processors : Nat) (config : ServerConfig) (limits : Limits)
    (as : List Act) (h : Sequential (.ofConfig processors config limits) as) :
    MeetsPromises (.ofConfig processors config limits) as where
  isUp_iff := isUp_iff_started rfl h
  answered l := answered_of_sequential rfl rfl
  joined as₁ as₂ l has hl := by
    subst has
    intro i
    have htask : ((run _ as₁).server.launch l).task = .running := hl
    refine ⟨fun how hhow => ?_, fun hsub => ⟨.returned none, ?_⟩⟩
    · obtain rfl : how = .returned none := by simpa using phase_of_isOrdinary h.ordinary hhow
      rw [htask]
      rfl
    · rw [List.append_cons] at h ⊢
      exact h.ended_of_sublist (length_lt_of_launches hl) hsub
  delivers as₁ as₂ l has hl := has ▸ callback_of_launches rfl hl
  restarts rs hdown hdead := h.append_rounds ⟨mt (isUp_iff_started rfl h).1 hdown, hdead⟩

/-- A server is started too early. -/
def early : List Act := [.start (onPort 5000)]

/-- The early start is refused, and two others that come later succeed, one after the other. -/
theorem meetsPromises_of_sequential_early :
    let s := portZero
    let closing : Callback := fun c => { stream := c.close.stream }
    let keeping : Callback := fun c => { stream := c.stream }
    (s.launch (onPort 5000)).task = .completed (some .noCallback) ∧ Sequential s early ∧
      (run s (early ++ rounds 0 [(closing, onPort 5000), (keeping, onPort 6000)])).loops =
        [.ended (.returned none), .ended (.returned none)] ∧
      callbacks { server := s }
        (early ++ rounds 0 [(closing, onPort 5000), (keeping, onPort 6000)]) =
          [closing, keeping] := by
  intro s closing keeping
  have hearly : Sequential s early :=
    (Sequential.nil s).concat (a := .start (onPort 5000)) ⟨rfl, rfl⟩ fun _ _ => not_lives_nil s
  have hnil := meetsPromises_of_sequential 1 { port := 0 } {} [] (.nil s)
  have hrefused := (hnil.answered (onPort 5000) hearly).noCallback_iff.2
    ⟨mt hnil.isUp_iff.2 nofun, nofun⟩
  have hpromises := meetsPromises_of_sequential 1 { port := 0 } {} early hearly
  obtain ⟨-, hloops, hcallbacks⟩ := hpromises.restarts
    [(closing, onPort 5000), (keeping, onPort 6000)] (mt hpromises.isUp_iff.2 nofun)
    (fun i ⟨p, hp, _⟩ => by contradiction)
    (by simpa [onPort] using ⟨⟨rfl, rfl⟩, ⟨rfl, rfl⟩⟩)
  exact ⟨hrefused, hearly, hloops, hcallbacks⟩

end Timeline

end Server

end HttpServer
