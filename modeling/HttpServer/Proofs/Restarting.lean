import HttpServer.Server.Lifecycle
import Mathlib.Data.List.Induction

/-!
# Servers that are started again

All loops that a server has ever started share one flag. A start is refused while the flag is
raised, and raises it; a stop lowers it; and a loop that comes to its end lowers it once more,
whoever has raised it since. So the flag tells neither how many loops are alive nor which of
them is to stop. A start that comes between a stop and the end of the loop that is to stop
undoes the stop, and the end of that loop stops the one that was just started.

`Timeline.run` is what comes of a list of acts, and `Timeline.Effect` is all that an act can
do. `Timeline.orderly_iff_patient` tells in which runs nothing of this goes wrong : those in
which every loop is started when no other one is alive. `Timeline.impatient` is a run in which
everything goes wrong.
-/

namespace HttpServer.Server

/-- A launch that starts a loop finds the flag lowered and raises it. Another one leaves it as
it is. -/
theorem launch_running (s : Server) (l : Launch) :
    if (s.launch l).task = .running then
      s.running = false ∧ (s.launch l).server.running = true
    else (s.launch l).server.running = s.running := by
  unfold launch
  split
  · simp [failed]
  · rename_i hr
    split
    · simp [failed]
    · split
      · simp [failed]
      · dsimp only
        split
        · simp [failed]
        · split
          · simpa using hr
          · simp

namespace Timeline

/-! ## Runs -/

/-- Something that happens to a server. -/
inductive Act where
  | onConnection (callback : Callback)
  | start (l : Launch)
  | stop
  /-- The loop with this number looks at the flag. -/
  | look (i : Nat)
  | fails (i : Nat) (e : ServerError)
  | givesUp (i : Nat) (e : ServerError)
  | panics (i : Nat)
  | ends (i : Nat)

/-- The loop that acts. -/
def Act.loop? : Act → Option Nat
  | onConnection _ | start _ | stop => none
  | look i | fails i _ | givesUp i _ | panics i | ends i => some i

/-- What comes of an act. -/
def act (t : Timeline) : Act → Timeline
  | .onConnection callback => { t with server := t.server.onConnection callback }
  | .start l => t.start l
  | .stop => t.stop
  | .look i => t.look i
  | .fails i e => t.fails i e
  | .givesUp i e => t.givesUp i e
  | .panics i => t.panics i
  | .ends i => (t.ends i).1

/-- What comes of a list of acts. -/
def run (s : Server) (as : List Act) : Timeline := as.foldl act { server := s }

theorem run_concat (s : Server) (as : List Act) (a : Act) :
    run s (as ++ [a]) = (run s as).act a := by
  rw [run, List.foldl_append]
  rfl

theorem step_iff_act {t u : Timeline} : Step t u ↔ ∃ a, u = t.act a := by
  constructor
  · intro h
    cases h with
    | onConnection callback => exact ⟨.onConnection callback, rfl⟩
    | start l => exact ⟨.start l, rfl⟩
    | stop => exact ⟨.stop, rfl⟩
    | look i => exact ⟨.look i, rfl⟩
    | fails i e => exact ⟨.fails i e, rfl⟩
    | givesUp i e => exact ⟨.givesUp i e, rfl⟩
    | panics i => exact ⟨.panics i, rfl⟩
    | ends i => exact ⟨.ends i, rfl⟩
  · rintro ⟨a, rfl⟩
    cases a with
    | onConnection callback => exact .onConnection t callback
    | start l => exact .start t l
    | stop => exact .stop t
    | look i => exact .look t i
    | fails i e => exact .fails t i e
    | givesUp i e => exact .givesUp t i e
    | panics i => exact .panics t i
    | ends i => exact .ends t i

/-- The runs lead to all that can come of a server. -/
theorem reachable_iff_run {s : Server} {t : Timeline} :
    Reachable s t ↔ ∃ as, t = run s as := by
  constructor
  · intro h
    induction h with
    | start => exact ⟨[], rfl⟩
    | step _ hstep ih =>
      obtain ⟨as, rfl⟩ := ih
      obtain ⟨a, rfl⟩ := step_iff_act.1 hstep
      exact ⟨as ++ [a], (run_concat s as a).symm⟩
  · rintro ⟨as, rfl⟩
    induction as using List.reverseRecOn with
    | nil => exact .start
    | append_singleton as a ih =>
      rw [run_concat]
      exact ih.step (step_iff_act.2 ⟨a, rfl⟩)

/-! ## What an act can do -/

/-- The loop serves connections. -/
def Serves (t : Timeline) (i : Nat) : Prop := t.loops[i]? = some .serving

/-- The loop has not ended. -/
def Lives (t : Timeline) (i : Nat) : Prop := ∃ p, t.loops[i]? = some p ∧ p.isAlive = true

/-- A start that starts a loop. -/
def Launches (t : Timeline) (l : Launch) : Prop := (t.server.launch l).task = .running

/-- The flag is raised. -/
def IsUp (t : Timeline) : Prop := t.server.running = true

/-- What an act does to the flag and to the loops. -/
inductive Effect (t : Timeline) (a : Act) : Timeline → Prop where
  /-- It does nothing to them. -/
  | rests {server : Server} : server.running = t.server.running →
    Effect t a { t with server }
  /-- It raises the flag and starts a loop. -/
  | launches {l : Launch} {server : Server} : a = .start l → Launches t l →
    server.running = true → Effect t a { server, loops := t.loops ++ [.serving] }
  /-- It lowers the flag. -/
  | stops : a = .stop → Effect t a t.stop
  /-- A loop that lives goes on, and serves no more. It may lower the flag. -/
  | goesOn {i : Nat} {p p' : LoopPhase} {server : Server} : a.loop? = some i →
    t.loops[i]? = some p → p.isAlive = true → p' ≠ .serving →
    (server.running = true → t.server.running = true) →
    Effect t a { server, loops := t.loops.set i p' }

theorem effect (t : Timeline) (a : Act) : Effect t a (t.act a) := by
  cases a with
  | onConnection callback => exact .rests rfl
  | start l =>
    have hlaunch := t.server.launch_running l
    unfold act start
    dsimp only
    split
    · rename_i hl
      rw [if_pos hl] at hlaunch
      exact .launches rfl hl hlaunch.2
    · rename_i hl
      rw [if_neg hl] at hlaunch
      exact .rests hlaunch
  | stop => exact .stops rfl
  | look i =>
    unfold act look
    dsimp only
    split
    · rename_i hi
      split
      · exact .rests rfl
      · exact .goesOn rfl hi rfl (by simp) id
    · exact .rests rfl
  | fails i e =>
    unfold act fails
    dsimp only
    split
    · rename_i hi
      exact .goesOn rfl hi rfl (by simp) id
    · exact .rests rfl
  | givesUp i e =>
    unfold act givesUp
    dsimp only
    split
    · rename_i hi
      exact .goesOn rfl hi rfl (by simp) (by simp [Server.stop])
    · exact .rests rfl
  | panics i =>
    unfold act panics
    dsimp only
    split
    · rename_i hi
      exact .goesOn rfl hi rfl (by simp) id
    · exact .rests rfl
  | ends i =>
    unfold act ends
    dsimp only
    split
    · rename_i e? hi
      exact .goesOn rfl hi rfl (by simp) (by simp [loopEnds, Server.stop])
    · exact .rests rfl

/-! ## What one would like to hold -/

/-- At no time two loops are alive. -/
def Alone (s : Server) (as : List Act) : Prop :=
  ∀ ⦃as₁⦄, as₁ <+: as → ∀ ⦃i j⦄, Lives (run s as₁) i → Lives (run s as₁) j → i = j

/-- A loop that serves when a stop comes finds the flag lowered, at whatever time it looks. -/
def HeedsStops (s : Server) (as : List Act) : Prop :=
  ∀ ⦃as₁ as₂ i⦄, as₁ ++ .stop :: as₂ <+: as → Serves (run s as₁) i →
    Serves (run s (as₁ ++ .stop :: as₂)) i → ¬ IsUp (run s (as₁ ++ .stop :: as₂))

/-- No loop lowers the flag of a newer one that is alive. -/
def SparesNewer (s : Server) (as : List Act) : Prop :=
  ∀ ⦃as₁ a i j⦄, as₁ ++ [a] <+: as → a.loop? = some i → i < j → Lives (run s as₁) j →
    IsUp (run s as₁) → IsUp (run s (as₁ ++ [a]))

/-- The loops of a server do not get in the way of each other. -/
structure Orderly (s : Server) (as : List Act) : Prop where
  alone : Alone s as
  heedsStops : HeedsStops s as
  sparesNewer : SparesNewer s as

/-- Every loop is started when no other one is alive. -/
def Patient (s : Server) (as : List Act) : Prop :=
  ∀ ⦃as₁ l⦄, as₁ ++ [.start l] <+: as → Launches (run s as₁) l → ∀ i, ¬ Lives (run s as₁) i

/-! ## When it holds -/

variable {s : Server} {as as' : List Act} {t u : Timeline} {a : Act} {i j : Nat}

theorem Serves.lives (h : Serves t i) : Lives t i := ⟨.serving, h, rfl⟩

theorem Patient.of_prefix (h : Patient s as) (hpre : as' <+: as) : Patient s as' :=
  fun _ _ hstart => h (hstart.trans hpre)

/-- A loop that is alive was so before, or it has just been started. -/
theorem lives_of_effect (h : Effect t a u) (hi : Lives u i) :
    Lives t i ∨ i = t.loops.length ∧ ∃ l, a = .start l ∧ Launches t l := by
  obtain ⟨p, hp, halive⟩ := hi
  cases h with
  | rests | stops => exact .inl ⟨p, hp, halive⟩
  | @launches l _ ha hl =>
    rw [List.getElem?_append] at hp
    split at hp
    · exact .inl ⟨p, hp, halive⟩
    · rw [List.getElem?_singleton] at hp
      split at hp
      · exact .inr ⟨by omega, l, ha, hl⟩
      · contradiction
  | @goesOn j q _ _ _ hq hqalive =>
    rw [List.getElem?_set] at hp
    split at hp
    · rename_i hji
      subst hji
      exact .inl ⟨q, hq, hqalive⟩
    · exact .inl ⟨p, hp, halive⟩

theorem serves_of_effect (h : Effect t a u) (hi : Serves u i) (hlt : i < t.loops.length) :
    Serves t i := by
  unfold Serves at hi ⊢
  cases h with
  | rests | stops => exact hi
  | launches => rwa [List.getElem?_append_left hlt] at hi
  | goesOn _ _ _ hne =>
    rw [List.getElem?_set] at hi
    split at hi
    · split at hi
      · exact absurd (Option.some.inj hi) hne
      · contradiction
    · exact hi

theorem length_of_effect (h : Effect t a u) : t.loops.length ≤ u.loops.length := by
  cases h with
  | rests | stops => exact Nat.le_refl _
  | launches => simp
  | goesOn => simp

/-- Only a start raises the flag. -/
theorem isUp_of_effect (h : Effect t a u) (hu : IsUp u) :
    IsUp t ∨ ∃ l, a = .start l ∧ Launches t l := by
  cases h with
  | rests hr => exact .inl (hr.symm.trans hu)
  | launches ha hl => exact .inr ⟨_, ha, hl⟩
  | stops => contradiction
  | goesOn _ _ _ _ hr => exact .inl (hr hu)

theorem Patient.eq_of_lives (h : Patient s as) (hi : Lives (run s as) i)
    (hj : Lives (run s as) j) : i = j := by
  induction as using List.reverseRecOn with
  | nil =>
    obtain ⟨p, hp, -⟩ := hi
    contradiction
  | append_singleton as a ih =>
    have heffect := effect (run s as) a
    rw [run_concat] at hi hj
    rcases lives_of_effect heffect hi with hold | ⟨rfl, l, rfl, hl⟩
    · rcases lives_of_effect heffect hj with hold' | ⟨-, l, rfl, hl⟩
      · exact ih (h.of_prefix (List.prefix_append _ _)) hold hold'
      · exact absurd hold (h (List.prefix_refl _) hl i)
    · rcases lives_of_effect heffect hj with hold | ⟨rfl, -⟩
      · exact absurd hold (h (List.prefix_refl _) hl j)
      · rfl

theorem Patient.alone (h : Patient s as) : Alone s as :=
  fun _ hpre _ _ => (h.of_prefix hpre).eq_of_lives

theorem Patient.heedsStops (h : Patient s as) : HeedsStops s as := by
  intro as₁ as₂ i hpre hserves
  -- A loop that was started later may have the same phase, but not the same number.
  suffices hrun : i < (run s (as₁ ++ .stop :: as₂)).loops.length ∧
      (Serves (run s (as₁ ++ .stop :: as₂)) i → ¬ IsUp (run s (as₁ ++ .stop :: as₂))) from hrun.2
  induction as₂ using List.reverseRecOn with
  | nil =>
    rw [run_concat]
    exact ⟨(List.getElem?_eq_some_iff.1 hserves).1, fun _ hup => by contradiction⟩
  | append_singleton as₂ a ih =>
    have hbefore : as₁ ++ .stop :: as₂ ++ [a] <+: as := by simpa using hpre
    obtain ⟨hlt, hlow⟩ := ih ((List.prefix_append _ _).trans hbefore)
    have heffect := effect (run s (as₁ ++ .stop :: as₂)) a
    rw [← List.cons_append, ← List.append_assoc, run_concat]
    refine ⟨Nat.lt_of_lt_of_le hlt (length_of_effect heffect), fun hi hup => ?_⟩
    have hi' := serves_of_effect heffect hi hlt
    rcases isUp_of_effect heffect hup with hup | ⟨l, rfl, hl⟩
    · exact hlow hi' hup
    · exact h hbefore hl i hi'.lives

theorem Patient.sparesNewer (h : Patient s as) : SparesNewer s as := by
  intro as₁ a i j hpre ha hij hj hup
  have heffect := effect (run s as₁) a
  rw [run_concat]
  generalize (run s as₁).act a = u at heffect
  cases heffect with
  | rests hr => exact hr.trans hup
  | launches _ _ hr => exact hr
  | stops hstop =>
    rw [hstop] at ha
    contradiction
  | goesOn ha' hp halive =>
    obtain rfl := Option.some.inj (ha.symm.trans ha')
    have := (h.of_prefix ((List.prefix_append _ _).trans hpre)).eq_of_lives ⟨_, hp, halive⟩ hj
    omega

/-- A loop that is started beside another one that is alive. -/
theorem Alone.patient (h : Alone s as) : Patient s as := by
  intro as₁ l hpre hl i hi
  have hloops : (run s (as₁ ++ [.start l])).loops = (run s as₁).loops ++ [.serving] := by
    rw [run_concat]
    exact if_pos hl
  obtain ⟨p, hp, halive⟩ := hi
  have hlt := (List.getElem?_eq_some_iff.1 hp).1
  have hold : Lives (run s (as₁ ++ [.start l])) i :=
    ⟨p, by rwa [hloops, List.getElem?_append_left hlt], halive⟩
  have hnew : Lives (run s (as₁ ++ [.start l])) (run s as₁).loops.length :=
    ⟨.serving, by rw [hloops, List.getElem?_concat_length], rfl⟩
  have := h hpre hold hnew
  omega

/-- The loops of a server do not get in the way of each other exactly if every one of them is
started when no other one is alive. -/
theorem orderly_iff_patient (s : Server) (as : List Act) : Orderly s as ↔ Patient s as :=
  ⟨fun h => h.alone.patient, fun h => ⟨h.alone, h.heedsStops, h.sparesNewer⟩⟩

/-- A system in which a server comes to listen on the given port. -/
def onPort (port : Nat) : Launch := { listen := fun _ => .ok port }

/-- A server that lets the system choose its port. -/
def portZero : Server := .ofConfig 1 { port := 0 } {}

/-- A server is started again before its first loop has ended, and stopped and started again
before its second loop has looked at the flag. -/
def impatient : List Act :=
  [.onConnection fun c => { stream := c.stream }, .start (onPort 50000), .stop, .look 0,
    .start (onPort 50001), .ends 0, .stop, .start (onPort 50002)]

theorem not_orderly_impatient : ¬ Alone portZero impatient ∧ ¬ HeedsStops portZero impatient ∧
    ¬ SparesNewer portZero impatient := by
  refine ⟨fun h => ?_, fun h => ?_, fun h => ?_⟩
  · -- The second start.
    have hpre : impatient.take 5 <+: impatient := List.take_prefix 5 _
    have := h hpre (i := 0) (j := 1) ⟨.returned none, rfl, rfl⟩ ⟨.serving, rfl, rfl⟩
    contradiction
  · -- The stop that the second loop has not heeded when the third one is started.
    have hpre : impatient.take 6 ++ .stop :: [.start (onPort 50002)] <+: impatient :=
      List.prefix_refl _
    exact h hpre (i := 1) rfl rfl rfl
  · -- The end of the first loop.
    have hpre : impatient.take 5 ++ [.ends 0] <+: impatient :=
      ⟨[.stop, .start (onPort 50002)], rfl⟩
    have hup := h hpre (i := 0) (j := 1) rfl (by decide) ⟨.serving, rfl, rfl⟩ rfl
    contradiction

end Timeline

end HttpServer.Server
