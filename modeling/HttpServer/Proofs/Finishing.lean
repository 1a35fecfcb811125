import HttpServer.Proofs.Restarting

/-!
# Loops that come to their end

Whoever starts a server can wait for its loop. When the wait is over and no newer loop was
started, the server is to have stopped : the flag is lowered, no start is refused because of it,
and the wait has given success only if the loop returned with success (`Timeline.Finished`).

A loop that returns lowers the flag, whether it failed or not, and nothing but a start that
starts a loop raises it again (`Timeline.isUp_iff_staysUp`). A loop that panics leaves the flag
as it is, and of it nothing is heard, which counts as success. So the promise is kept exactly by
the loops that return (`Timeline.finished_iff`).
-/

namespace HttpServer.Server.Timeline

variable {s : Server} {as as₁ : List Act} {t u : Timeline} {a : Act} {l : Launch} {i : Nat}
  {e? : Option ServerError}

/-! ## Starts that are refused -/

/-- A start is refused because the flag is raised. -/
def Refuses (t : Timeline) (l : Launch) : Prop :=
  t.server.launch l = t.server.failed .alreadyRunning .warn "Server is already running"

theorem refuses_iff_isUp : Refuses t l ↔ IsUp t := by
  refine ⟨fun h => ?_, fun h => if_pos h⟩
  by_contra hup
  have hr : ¬t.server.running = true := hup
  unfold Refuses launch at h
  rw [if_neg hr] at h
  -- The other failures differ in the error or in the level of what is said.
  split at h
  · simp [failed] at h
  · split at h
    · simp [failed] at h
    · split at h
      · simp [failed] at h
      · dsimp only at h
        split at h <;> simp [failed] at h

/-! ## The flag since the last start -/

/-- The flag has been raised ever since the newest loop was started. -/
def StaysUp (s : Server) (as : List Act) : Prop :=
  ∀ ⦃as₁⦄, as₁ <+: as → (run s as₁).loops.length = (run s as).loops.length → IsUp (run s as₁)

/-- Only an act that starts a loop raises the flag. -/
theorem isUp_of_length_eq (h : Effect t a u) (hlen : t.loops.length = u.loops.length)
    (hu : IsUp u) : IsUp t := by
  cases h with
  | rests hr => exact hr.symm.trans hu
  | launches => simp at hlen
  | stops => contradiction
  | goesOn _ _ _ _ hr => exact hr hu

theorem length_le_of_prefix (h : as₁ <+: as) :
    (run s as₁).loops.length ≤ (run s as).loops.length := by
  induction as using List.reverseRecOn with
  | nil =>
    obtain rfl := List.prefix_nil.1 h
    exact Nat.le_refl _
  | append_singleton as a ih =>
    rcases List.prefix_concat_iff.1 h with rfl | hpre
    · exact Nat.le_refl _
    · rw [run_concat]
      exact Nat.le_trans (ih hpre) (length_of_effect (effect _ a))

theorem isUp_iff_staysUp (s : Server) (as : List Act) : IsUp (run s as) ↔ StaysUp s as := by
  refine ⟨fun hup => ?_, fun h => h (List.prefix_refl _) rfl⟩
  induction as using List.reverseRecOn with
  | nil =>
    intro as₁ hpre _
    rwa [List.prefix_nil.1 hpre]
  | append_singleton as a ih =>
    intro as₁ hpre hlen
    rcases List.prefix_concat_iff.1 hpre with rfl | hpre
    · exact hup
    · have heffect := effect (run s as) a
      rw [run_concat] at hup hlen
      have hle := length_le_of_prefix (s := s) hpre
      have hle' := length_of_effect heffect
      exact ih (isUp_of_length_eq heffect (by omega) hup) hpre (by omega)

/-! ## Loops that have returned -/

theorem getElem?_of_set {loops : List LoopPhase} {j : Nat} {p p' : LoopPhase} (hne : p' ≠ p)
    (h : (loops.set j p')[i]? = some p) : loops[i]? = some p := by
  rw [List.getElem?_set] at h
  split at h
  · split at h
    · exact absurd (Option.some.inj h) hne
    · contradiction
  · exact h

/-- A loop that has returned and ended was so before, or it has just lowered the flag. -/
theorem returned_of_act (h : (t.act a).loops[i]? = some (.ended (.returned e?))) :
    t.loops[i]? = some (.ended (.returned e?)) ∨ ¬IsUp (t.act a) := by
  cases a with
  | onConnection | stop => exact .inl h
  | start l =>
    unfold act start at h
    dsimp only at h
    split at h
    · rw [List.getElem?_append] at h
      split at h
      · exact .inl h
      · rw [List.getElem?_singleton] at h
        split at h <;> cases h
    · exact .inl h
  | look j =>
    unfold act look at h
    dsimp only at h
    split at h
    · split at h
      · exact .inl h
      · exact .inl (getElem?_of_set (by simp) h)
    · exact .inl h
  | fails j e =>
    unfold act fails at h
    dsimp only at h
    split at h
    · exact .inl (getElem?_of_set (by simp) h)
    · exact .inl h
  | givesUp j e =>
    unfold act givesUp at h
    dsimp only at h
    split at h
    · exact .inl (getElem?_of_set (by simp) h)
    · exact .inl h
  | panics j =>
    unfold act panics at h
    dsimp only at h
    split at h
    · exact .inl (getElem?_of_set (by simp) h)
    · exact .inl h
  | ends j =>
    unfold act ends at h ⊢
    dsimp only at h ⊢
    split at h
    · exact .inr (by simp [IsUp, loopEnds, Server.stop])
    · exact .inl h

/-- The flag is lowered when the newest loop has returned and ended. -/
theorem not_isUp_of_returned
    (h : (run s as).loops.getLast? = some (.ended (.returned e?))) : ¬IsUp (run s as) := by
  induction as using List.reverseRecOn with
  | nil => contradiction
  | append_singleton as a ih =>
    intro hup
    have heffect := effect (run s as) a
    rw [run_concat] at h hup
    rw [List.getLast?_eq_getElem?] at h ih
    have hlen : (run s as).loops.length = ((run s as).act a).loops.length := by
      generalize (run s as).act a = u at h heffect
      cases heffect with
      | rests | stops => rfl
      | launches => simp at h
      | goesOn => exact (List.length_set ..).symm
    rcases returned_of_act h with hold | hlow
    · rw [← hlen] at hold
      exact ih hold (isUp_of_length_eq heffect hlen hup)
    · exact hlow hup

/-! ## What the end of a loop means -/

/-- What it is to mean that the newest loop has come to its end. -/
structure Finished (t : Timeline) (how : LoopEnd) : Prop where
  /-- The flag is lowered. -/
  lowered : ¬IsUp t
  /-- No start is refused because of it. -/
  opened (l : Launch) : ¬Refuses t l
  /-- The wait gives success only if the loop returned with success. -/
  honest : ServerTask.running.join how = none → how = .returned none

/-- The end of the newest loop means what it is to mean exactly if the loop has returned. The
flag is still raised exactly if the loop panicked and nothing else has lowered the flag since. -/
theorem finished_iff (s : Server) (as : List Act) (how : LoopEnd)
    (h : (run s as).loops.getLast? = some (.ended how)) :
    (Finished (run s as) how ↔ how ≠ .panicked) ∧
      (IsUp (run s as) ↔ how = .panicked ∧ StaysUp s as) := by
  cases how with
  | returned e? =>
    have hlow := not_isUp_of_returned h
    refine ⟨iff_of_true ⟨hlow, fun l => mt refuses_iff_isUp.1 hlow, ?_⟩ nofun,
      iff_of_false hlow nofun⟩
    rintro (rfl : e? = none)
    rfl
  | panicked =>
    refine ⟨iff_of_false (fun hf => ?_) (not_not_intro rfl), ?_⟩
    · exact nomatch hf.honest rfl
    · rw [isUp_iff_staysUp, and_iff_right rfl]

/-- A server is started, and its loop ends in a way of its own. -/
def startAnd (as : List Act) : List Act :=
  .onConnection (fun c => { stream := c.stream }) :: .start (onPort 5000) :: as

/-- One loop heeds a stop, and one panics. -/
theorem finished_iff_startAnd :
    Finished (run (.ofConfig 1 {} {}) (startAnd [.stop, .look 0, .ends 0])) (.returned none) ∧
      StaysUp (.ofConfig 1 {} {}) (startAnd [.panics 0]) := by
  have hstop := finished_iff (.ofConfig 1 {} {}) (startAnd [.stop, .look 0, .ends 0])
    (.returned none) rfl
  have hpanic := finished_iff (.ofConfig 1 {} {}) (startAnd [.panics 0]) .panicked rfl
  exact ⟨hstop.1.2 nofun, (hpanic.2.1 rfl).2⟩

/-- After the panic of its loop a server seems to go on : every start is refused, and the wait
gave success. -/
theorem not_finished_panics :
    (run (.ofConfig 1 {} {}) (startAnd [.panics 0])).loops = [.ended .panicked] ∧
      ServerTask.running.join .panicked = none ∧
      IsUp (run (.ofConfig 1 {} {}) (startAnd [.panics 0])) ∧
      (∀ l, Refuses (run (.ofConfig 1 {} {}) (startAnd [.panics 0])) l) ∧
      ¬Finished (run (.ofConfig 1 {} {}) (startAnd [.panics 0])) .panicked :=
  ⟨rfl, rfl, rfl, fun _ => refuses_iff_isUp.2 rfl, fun h => h.lowered rfl⟩

end HttpServer.Server.Timeline
