import HttpServer.Pool.Interleaving
import Mathlib.Data.List.Flatten
import Mathlib.Data.List.Perm.Basic
import Mathlib.Logic.Relation

/-!
# What becomes of tasks

Every task that a pool accepts is in one place : it waits in a queue, a worker executes it, it
has ended, or it was thrown away with the pool. `Pool.Shift.Accounted` says so with all that
the argument needs, for a pool with the history of its tasks. Everything that can happen keeps
it (`Accounted.step`) : a submission goes on, a worker does its next thing, a task ends, the
pool is shut down. What a worker does by itself is `Pool.Does` : it rests, it goes on without
a task, or it takes one.

What is given to a pool is accepted or refused, or the submission is still under way
(`Pool.Shift.submitted_claim`, `Pool.Shift.submitted_put`). After a shutdown nothing happens to
tasks any more (`Pool.Shift.Over`). `Pool.Shift.kept_of_reachable` is all that is promised to
those who give tasks to a pool.
-/

namespace HttpServer.Pool

variable {τ : Type}

/-! ## One place of a list changes -/

section Set

variable {β γ : Type} {l : List β} {i : Nat} {x : β}

/-- What an element brings to a list is replaced with the element. -/
theorem perm_flatMap_set (h : l[i]? = some x) (y : β) (f : β → List γ) :
    (f y ++ l.flatMap f).Perm (f x ++ (l.set i y).flatMap f) := by
  obtain ⟨hi, rfl⟩ := List.getElem?_eq_some_iff.1 h
  have hold : (l.flatMap f).Perm (f l[i] ++ (l.eraseIdx i).flatMap f) :=
    (List.getElem_cons_eraseIdx_perm hi).symm.flatMap_right f
  have hnew : ((l.set i y).flatMap f).Perm (f y ++ (l.eraseIdx i).flatMap f) :=
    (List.set_perm_cons_eraseIdx hi y).flatMap_right f
  exact (hold.append_left _).trans
    ((List.perm_append_comm_assoc _ _ _).trans (hnew.symm.append_left _))

theorem perm_flatten_set {L : List (List γ)} {q : List γ} (h : L[i]? = some q) (q' : List γ) :
    (q' ++ L.flatten).Perm (q ++ (L.set i q').flatten) := by
  simpa using perm_flatMap_set h q' id

theorem perm_filterMap_set (h : l[i]? = some x) (y : β) (f : β → Option γ) :
    ((f y).toList ++ l.filterMap f).Perm ((f x).toList ++ (l.set i y).filterMap f) := by
  simpa [List.filterMap_eq_flatMap_toList] using perm_flatMap_set h y fun z => (f z).toList

theorem getD_set {L : List (List γ)} {q : List γ} (h : L[i]? = some q) (q' : List γ) (j : Nat) :
    (L.set i q')[j]?.getD [] = if i = j then q' else L[j]?.getD [] := by
  simp only [List.getElem?_set, (List.getElem?_eq_some_iff.1 h).1, if_true]
  split <;> rfl

end Set

theorem offer?_eq_some {p p' : Pool τ} {i : Nat} {t : τ} (h : p.offer? i t = some p') :
    ∃ q, p.queues[i]? = some q ∧ p' = { p with queues := p.queues.set i (q ++ [t]) } := by
  unfold offer? at h
  split at h
  · contradiction
  · rename_i q hq
    split at h
    · exact ⟨q, hq, (Option.some.inj h).symm⟩
    · contradiction

/-! ## What a worker does by itself -/

theorem task?_executing (t : τ) : (Worker.executing t).task? = some t := rfl

theorem task?_checking : (Worker.checking : Worker τ).task? = none := rfl

theorem task?_eq (p : Pool τ) (i : Nat) : p.task? i = p.workers[i]?.bind Worker.task? := by
  unfold Pool.task? Worker.task?
  rcases p.workers[i]? with _ | w
  · rfl
  · cases w <;> rfl

/-- The worker that goes on is the only one whose task changes. -/
theorem task?_setWorker {p : Pool τ} {i : Nat} (hi : i < p.workers.length) (w : Worker τ)
    (j : Nat) : (p.setWorker i w).task? j = if i = j then w.task? else p.task? j := by
  simp only [task?_eq, setWorker, List.getElem?_set, hi, if_true]
  split <;> rfl

/-- A worker whose task ends goes on, however the task ended. -/
theorem taskEnds_eq {p : Pool τ} {i : Nat} {t : τ} (h : p.task? i = some t) :
    p.workers[i]? = some (.executing t) ∧ p.taskEnds i = p.setWorker i .checking := by
  unfold Pool.task? at h
  split at h
  · rename_i t' hw
    obtain rfl := Option.some.inj h
    exact ⟨hw, by rw [Pool.taskEnds, hw]⟩
  · contradiction

/-- What a worker does as its next thing, with the task that it takes and the queue that the
task comes from. -/
inductive Does (p : Pool τ) (i : Nat) : Option (Nat × τ) → Pool τ → Prop where
  /-- It executes a task, or has come to its end. -/
  | rests : Does p i none p
  /-- It goes on, and comes to its end only if the pool does not run. -/
  | goesOn {w w' : Worker τ} : p.workers[i]? = some w → w ≠ .stopped → w.task? = none →
      w'.task? = none → (w' = .stopped → p.running = false) → Does p i none (p.setWorker i w')
  /-- It takes the oldest task of its own queue, or of the queue of its donor. -/
  | takes {w : Worker τ} {j : Nat} {t : τ} {q : List τ} : p.workers[i]? = some w →
      w ≠ .stopped → w.task? = none → j = i ∨ j = p.donorOf i → p.queues[j]? = some (t :: q) →
      Does p i (some (j, t)) ({ p with queues := p.queues.set j q }.setWorker i (.executing t))

/-- A worker that looks into a queue takes its oldest task, or goes on without one. -/
theorem does_of_looking {p : Pool τ} {i j : Nat} {w w' : Worker τ}
    (hw : p.workers[i]? = some w) (hs : w ≠ .stopped) (hidle : w.task? = none)
    (hs' : w' ≠ .stopped) (hidle' : w'.task? = none) (hj : j = i ∨ j = p.donorOf i) :
    Does p i ((p.take? j).map fun x => (j, x.1))
      (match p.take? j with
        | some (t, p') => p'.setWorker i (.executing t)
        | none => p.setWorker i w') := by
  unfold take?
  split
  · rename_i t q hq
    exact .takes hw hs hidle hj hq
  · exact .goesOn hw hs hidle hidle' (absurd · hs')

theorem does (p : Pool τ) (i : Nat) : Does p i (p.takes? i) (p.workerStep i) := by
  unfold takes? source? workerStep
  cases hw : p.workers[i]? with
  | none => exact .rests
  | some w =>
    cases w with
    | checking =>
      refine .goesOn hw (by simp) rfl ?_ ?_
      · split <;> rfl
      · split
        · simp
        · simp_all
    | own => exact does_of_looking hw (by simp) rfl (by simp) rfl (.inl rfl)
    | donor => exact does_of_looking hw (by simp) rfl (by simp) rfl (.inr rfl)
    | executing t => exact .rests
    | stopped => exact .rests

namespace Shift

variable {s u : Shift τ} {n i k : Nat} {t : τ}

/-! ## The history of a queue and of a worker -/

/-- The tasks that were accepted into a queue, in that order. -/
def acceptedInto (s : Shift τ) (i : Nat) : List τ :=
  s.accepted.filterMap fun x => if x.1 = i then some x.2 else none

/-- The tasks that were taken from a queue, in that order. -/
def takenFrom (s : Shift τ) (i : Nat) : List τ :=
  s.taken.filterMap fun x => if x.queue = i then some x.task else none

/-- The tasks that wait in a queue, the oldest in front. -/
def waiting (s : Shift τ) (i : Nat) : List τ := s.pool.queues[i]?.getD []

/-- The tasks that a worker took, in that order. -/
def takenBy (s : Shift τ) (i : Nat) : List τ :=
  s.taken.filterMap fun x => if x.worker = i then some x.task else none

/-- The tasks that ended on a worker, in that order. -/
def executedBy (s : Shift τ) (i : Nat) : List τ :=
  s.executed.filterMap fun x => if x.worker = i then some x.task else none

/-- The tasks that were given to the pool. -/
def submitted (s : Shift τ) : List τ :=
  s.accepted.map Prod.snd ++ s.refused ++ s.claims.map Prod.fst

/-! ## Every task is accounted for -/

/-- What becomes of the tasks of a pool with so many workers. -/
structure Accounted (n : Nat) (s : Shift τ) : Prop where
  queues : s.pool.queues.length = n
  workers : s.pool.workers.length = n
  /-- The accepted tasks have ended, are executed, wait, or were thrown away. -/
  tasks : (s.accepted.map Prod.snd).Perm
    (s.executed.map (·.task) ++ s.executing ++ s.queued ++ s.dropped)
  /-- What was accepted into a queue was taken from it in the same order, or waits there. The
  rest was thrown away. -/
  order (i : Nat) : ∃ lost, s.acceptedInto i = s.takenFrom i ++ s.waiting i ++ lost ∧
    (s.closed = false → lost = [])
  /-- What a worker took has ended there in the same order, up to the task that it executes. -/
  hands (i : Nat) : s.takenBy i = s.executedBy i ++ (s.pool.task? i).toList
  /-- A worker takes tasks from its own queue and from that of the next worker. -/
  sources : ∀ x ∈ s.taken, x.queue = x.worker ∨ x.queue = (x.worker + 1) % n
  log : s.log = s.executed.flatMap fun e => e.ending.log e.worker
  working : s.pool.running = true → .stopped ∉ s.pool.workers
  claims : s.pool.running = false → s.claims = []
  closed : s.closed = true → s.pool.running = false ∧ ∀ w ∈ s.pool.workers, w = .stopped
  dropped : s.closed = false → s.dropped = []

namespace Accounted

theorem create (threads capacity : Nat) :
    Accounted (max threads 1) ({ pool := Pool.create (τ := τ) threads capacity } : Shift τ) where
  queues := List.length_replicate
  workers := List.length_replicate
  tasks := by simp [executing, queued, Pool.create, Worker.task?]
  order i := by
    refine ⟨[], ?_, fun _ => rfl⟩
    simp only [acceptedInto, takenFrom, waiting, Pool.create, List.getElem?_replicate]
    split <;> rfl
  hands i := by
    simp only [takenBy, executedBy, task?_eq, Pool.create, List.getElem?_replicate]
    split <;> rfl
  sources := by simp
  log := rfl
  working _ := by simp [Pool.create]
  claims _ := rfl
  closed := by simp
  dropped _ := rfl

theorem claim (h : Accounted n s) (t : τ) : Accounted n (s.claim t) := by
  unfold Shift.claim Pool.claim?
  split
  · rename_i i pool hclaim
    split at hclaim
    · rename_i hr
      simp only [Option.some.injEq, Prod.mk.injEq] at hclaim
      obtain ⟨-, rfl⟩ := hclaim
      exact { h with claims := by simp [hr] }
    · contradiction
  · exact { h with }

/-- While a submission is under way the pool runs, and is not closed. -/
theorem running_of_claim (h : Accounted n s) {c : τ × Nat} (hc : s.claims[k]? = some c) :
    s.pool.running = true ∧ s.closed = false := by
  have hr : s.pool.running = true := by
    by_contra hr
    rw [h.claims (by simpa using hr)] at hc
    contradiction
  refine ⟨hr, ?_⟩
  by_contra hcl
  have := (h.closed (by simpa using hcl)).1
  simp [hr] at this

theorem put (h : Accounted n s) (k : Nat) : Accounted n (s.put k) := by
  unfold Shift.put
  split
  · exact h
  · rename_i t i hc
    obtain ⟨hr, hcl⟩ := h.running_of_claim hc
    split
    · rename_i pool hoffer
      obtain ⟨q, hq, rfl⟩ := offer?_eq_some hoffer
      exact
        { h with
          queues := by simpa using h.queues
          tasks := by
            classical
            refine List.perm_iff_count.2 fun a => ?_
            have hold := h.tasks.count_eq a
            have hset := (perm_flatten_set hq (q ++ [t])).count_eq a
            simp only [queued, executing, List.map_append, List.count_append, List.map_cons,
              List.map_nil] at hold hset ⊢
            omega
          order := fun j => by
            obtain ⟨lost, horder, hlost⟩ := h.order j
            obtain rfl := hlost hcl
            refine ⟨[], ?_, fun _ => rfl⟩
            simp only [acceptedInto, waiting, List.filterMap_append, getD_set hq] at horder ⊢
            rw [horder]
            by_cases hij : i = j
            · subst hij
              simp [hq, takenFrom]
            · simp [hij, takenFrom]
          claims := by simp [hr] }
    · exact { h with claims := by simp [hr] }

/-- A pool with a worker that has not come to its end is not closed. -/
theorem closed_of_worker (h : Accounted n s) {w : Worker τ} (hw : s.pool.workers[i]? = some w)
    (hs : w ≠ .stopped) : s.closed = false := by
  by_contra hcl
  exact hs ((h.closed (by simpa using hcl)).2 w (List.mem_of_getElem? hw))

/-- While the pool runs no worker comes to its end. -/
theorem working_set (h : Accounted n s) {w : Worker τ}
    (hstop : w = .stopped → s.pool.running = false) (hr : s.pool.running = true) (i : Nat) :
    .stopped ∉ s.pool.workers.set i w := by
  intro hmem
  rcases List.mem_or_eq_of_mem_set hmem with hmem | heq
  · exact h.working hr hmem
  · rw [hstop heq.symm] at hr
    contradiction

theorem goesOn (h : Accounted n s) {w w' : Worker τ} (hw : s.pool.workers[i]? = some w)
    (hs : w ≠ .stopped) (hidle : w.task? = none) (hidle' : w'.task? = none)
    (hstop : w' = .stopped → s.pool.running = false) :
    Accounted n { s with pool := s.pool.setWorker i w' } :=
  { h with
    workers := by simpa [setWorker] using h.workers
    tasks := by
      classical
      refine List.perm_iff_count.2 fun a => ?_
      have hold := h.tasks.count_eq a
      have hset := (perm_filterMap_set hw w' Worker.task?).count_eq a
      simp only [hidle, hidle', Option.toList_none, List.nil_append] at hset
      simp only [queued, executing, setWorker, List.count_append] at hold ⊢
      omega
    hands := fun j => by
      have hold := h.hands j
      have hi := (List.getElem?_eq_some_iff.1 hw).1
      simp only [takenBy, executedBy, task?_setWorker hi] at hold ⊢
      rw [hold]
      split
      · rename_i hij
        subst hij
        simp [task?_eq, hw, hidle, hidle']
      · rfl
    working := fun hr => h.working_set hstop hr i
    closed := fun hcl => absurd hcl (by simp [h.closed_of_worker hw hs]) }

theorem takes (h : Accounted n s) {w : Worker τ} {j : Nat} {q : List τ}
    (hw : s.pool.workers[i]? = some w) (hs : w ≠ .stopped) (hidle : w.task? = none)
    (hj : j = i ∨ j = s.pool.donorOf i) (hq : s.pool.queues[j]? = some (t :: q)) :
    Accounted n { s with
      pool := { s.pool with queues := s.pool.queues.set j q }.setWorker i (.executing t)
      taken := s.taken ++ [{ worker := i, queue := j, task := t }] } :=
  { h with
    queues := by simpa [setWorker] using h.queues
    workers := by simpa [setWorker] using h.workers
    tasks := by
      classical
      refine List.perm_iff_count.2 fun a => ?_
      have hold := h.tasks.count_eq a
      have hset := (perm_filterMap_set hw (.executing t) Worker.task?).count_eq a
      have hset' := (perm_flatten_set hq q).count_eq a
      simp only [hidle, task?_executing, Option.toList_none, Option.toList_some,
        List.count_append, List.count_cons, List.count_nil] at hset hset'
      simp only [queued, executing, setWorker, List.count_append] at hold ⊢
      omega
    order := fun k => by
      obtain ⟨lost, horder, hlost⟩ := h.order k
      refine ⟨lost, ?_, hlost⟩
      simp only [acceptedInto, takenFrom, waiting, setWorker, List.filterMap_append,
        getD_set hq] at horder ⊢
      rw [horder]
      by_cases hjk : j = k
      · subst hjk
        simp [hq]
      · simp [hjk]
    hands := fun k => by
      have hold := h.hands k
      have hi := (List.getElem?_eq_some_iff.1 hw).1
      have htask := task?_setWorker (p := { s.pool with queues := s.pool.queues.set j q }) hi
        (.executing t) k
      simp only [takenBy, executedBy, List.filterMap_append] at hold ⊢
      rw [hold, htask]
      by_cases hik : i = k
      · subst hik
        simp [task?_eq, hw, hidle, task?_executing]
      · simp [task?_eq, hik]
    sources := fun x hx => by
      rcases List.mem_append.1 hx with hx | hx
      · exact h.sources x hx
      · obtain rfl := List.mem_singleton.1 hx
        rwa [donorOf, threads, h.queues] at hj
    working := fun hr => h.working_set (by simp) hr i
    closed := fun hcl => absurd hcl (by simp [h.closed_of_worker hw hs]) }

theorem work (h : Accounted n s) (i : Nat) : Accounted n (s.work i) := by
  have hdoes := does s.pool i
  unfold Shift.work
  generalize s.pool.takes? i = x, s.pool.workerStep i = p at hdoes
  cases hdoes with
  | rests => exact h
  | goesOn hw hs hidle hidle' hstop => exact h.goesOn hw hs hidle hidle' hstop
  | takes hw hs hidle hj hq => exact h.takes hw hs hidle hj hq

theorem taskEnds (h : Accounted n s) (i : Nat) (ending : TaskEnd) :
    Accounted n (s.taskEnds i ending) := by
  unfold Shift.taskEnds
  split
  · rename_i t ht
    obtain ⟨hw, hends⟩ := taskEnds_eq ht
    have hi := (List.getElem?_eq_some_iff.1 hw).1
    rw [hends]
    exact
      { h with
        workers := by simpa [setWorker] using h.workers
        tasks := by
          classical
          refine List.perm_iff_count.2 fun a => ?_
          have hold := h.tasks.count_eq a
          have hset := (perm_filterMap_set hw .checking Worker.task?).count_eq a
          simp only [task?_executing, task?_checking, Option.toList_none, Option.toList_some,
            List.count_append, List.count_nil] at hset
          simp only [queued, executing, setWorker, List.map_append, List.map_cons, List.map_nil,
            List.count_append] at hold ⊢
          omega
        hands := fun j => by
          have hold := h.hands j
          simp only [takenBy, executedBy, task?_setWorker hi, List.filterMap_append] at hold ⊢
          rw [hold]
          by_cases hij : i = j
          · subst hij
            simp [ht, task?_checking]
          · simp [hij]
        log := by simp [h.log]
        working := fun hr => h.working_set (by simp) hr i
        closed := fun hcl => absurd hcl (by simp [h.closed_of_worker hw]) }
  · exact h

theorem stop (h : Accounted n s) (hc : s.claims = []) :
    Accounted n { s with pool := s.pool.stop } :=
  { h with
    working := fun hr => by contradiction
    claims := fun _ => hc
    closed := fun hcl => ⟨rfl, (h.closed hcl).2⟩ }

theorem close (h : Accounted n s) (hr : s.pool.running = false)
    (hw : ∀ w ∈ s.pool.workers, w = .stopped) : Accounted n { s with closed := true } :=
  { h with
    order := fun i => by
      obtain ⟨lost, horder, -⟩ := h.order i
      exact ⟨lost, horder, by simp⟩
    closed := fun _ => ⟨hr, hw⟩
    dropped := by simp }

theorem drop (h : Accounted n s) (hcl : s.closed = true) : Accounted n s.drop :=
  { h with
    queues := by simpa [Shift.drop] using h.queues
    tasks := by
      have hqueued : s.drop.queued = [] := by simp [Shift.drop, queued]
      have hold := h.tasks
      rw [List.append_assoc] at hold
      rw [hqueued, List.append_nil]
      exact hold.trans (List.perm_append_comm.append_left _)
    order := fun i => by
      obtain ⟨lost, horder, -⟩ := h.order i
      refine ⟨s.waiting i ++ lost, ?_, by simp [Shift.drop, hcl]⟩
      have hwaiting : s.drop.waiting i = [] := by
        simp only [Shift.drop, waiting, List.getElem?_map]
        cases s.pool.queues[i]? <;> rfl
      rw [hwaiting, List.append_nil, ← List.append_assoc]
      exact horder
    dropped := by simp [Shift.drop, hcl] }

theorem step (h : Accounted n s) (hstep : Step s u) : Accounted n u := by
  cases hstep with
  | claim t => exact h.claim t
  | put k => exact h.put k
  | work i => exact h.work i
  | taskEnds i ending => exact h.taskEnds i ending
  | stop hc => exact h.stop hc
  | close hr hw => exact h.close hr hw
  | drop hcl => exact h.drop hcl

end Accounted

theorem accounted {threads capacity : Nat} (h : Reachable threads capacity s) :
    Accounted (max threads 1) s := by
  induction h with
  | start => exact .create threads capacity
  | step _ hstep ih => exact ih.step hstep

/-! ## Submissions -/

/-- A submission with nothing else in between. -/
theorem put_claim (s : Shift τ) (t : τ) : ∃ i, (s.claim t).put s.claims.length =
    if (s.pool.submit t).1 then
      { s with pool := (s.pool.submit t).2, accepted := s.accepted ++ [(i, t)] }
    else { s with pool := (s.pool.submit t).2, refused := s.refused ++ [t] } := by
  unfold Shift.claim submit
  cases s.pool.claim? with
  | none => exact ⟨0, by simp [put]⟩
  | some x =>
    obtain ⟨i, p⟩ := x
    refine ⟨i, ?_⟩
    simp only [put, List.getElem?_concat_length]
    cases p.offer? i t <;> simp [List.eraseIdx_append_of_length_le]

/-- What is given to a pool is accepted or refused, or the submission is under way. -/
theorem submitted_claim (s : Shift τ) (t : τ) :
    (s.claim t).submitted.Perm (t :: s.submitted) := by
  classical
  refine List.perm_iff_count.2 fun a => ?_
  unfold Shift.claim
  split <;> simp only [submitted, List.map_append, List.map_cons, List.map_nil,
    List.count_append, List.count_cons, List.count_nil] <;> omega

theorem submitted_put (s : Shift τ) (k : Nat) : (s.put k).submitted.Perm s.submitted := by
  unfold Shift.put
  split
  · rfl
  · rename_i t i hc
    obtain ⟨hk, hget⟩ := List.getElem?_eq_some_iff.1 hc
    have hclaims := (List.getElem_cons_eraseIdx_perm hk).map Prod.fst
    rw [hget] at hclaims
    classical
    refine List.perm_iff_count.2 fun a => ?_
    have hcount := hclaims.count_eq a
    split <;> simp only [submitted, List.map_append, List.map_cons, List.map_nil,
      List.count_append, List.count_cons, List.count_nil] at hcount ⊢ <;> omega

/-! ## After a shutdown -/

/-- The pool was shut down, and nothing has happened to the tasks since then, up to what was
thrown away. -/
structure Over (s u : Shift τ) : Prop where
  closed : u.closed = true
  accepted : u.accepted = s.accepted
  taken : u.taken = s.taken
  executed : u.executed = s.executed

namespace Accounted

/-- Workers that have come to their end do nothing. -/
theorem work_of_closed (h : Accounted n s) (hcl : s.closed = true) (i : Nat) :
    s.work i = s := by
  have hdoes := does s.pool i
  unfold Shift.work
  generalize s.pool.takes? i = x, s.pool.workerStep i = p at hdoes
  cases hdoes with
  | rests => rfl
  | goesOn hw hs => exact absurd ((h.closed hcl).2 _ (List.mem_of_getElem? hw)) hs
  | takes hw hs => exact absurd ((h.closed hcl).2 _ (List.mem_of_getElem? hw)) hs

theorem task?_of_closed (h : Accounted n s) (hcl : s.closed = true) (i : Nat) :
    s.pool.task? i = none := by
  by_contra hne
  obtain ⟨t, ht⟩ := Option.ne_none_iff_exists'.1 hne
  have := (h.closed hcl).2 _ (List.mem_of_getElem? (taskEnds_eq ht).1)
  contradiction

theorem executing_of_closed (h : Accounted n s) (hcl : s.closed = true) : s.executing = [] :=
  List.filterMap_eq_nil_iff.2 fun w hw => by rw [(h.closed hcl).2 w hw]; rfl

theorem submit_of_closed (h : Accounted n s) (hcl : s.closed = true) (t : τ) :
    (s.pool.submit t).1 = false := by
  simp [submit, claim?, (h.closed hcl).1]

theorem over_step {s₀ : Shift τ} (h : Accounted n s) (hover : Over s₀ s) (hstep : Step s u) :
    Over s₀ u := by
  have hr := (h.closed hover.closed).1
  cases hstep with
  | claim t =>
    have hclaim : s.claim t = { s with refused := s.refused ++ [t] } := by
      simp [Shift.claim, claim?, hr]
    rw [hclaim]
    exact { hover with }
  | put k =>
    have hput : s.put k = s := by simp [Shift.put, h.claims hr]
    rwa [hput]
  | work i => rwa [h.work_of_closed hover.closed]
  | taskEnds i ending =>
    have hends : s.taskEnds i ending = s := by
      simp [Shift.taskEnds, h.task?_of_closed hover.closed]
    rwa [hends]
  | stop hc => exact { hover with }
  | close => exact { hover with closed := rfl }
  | drop => exact { hover with }

theorem over_of_closed (h : Accounted n s) (hcl : s.closed = true)
    (hsteps : Relation.ReflTransGen Step s u) : Accounted n u ∧ Over s u := by
  induction hsteps with
  | refl => exact ⟨h, hcl, rfl, rfl, rfl⟩
  | tail _ hstep ih => exact ⟨ih.1.step hstep, ih.1.over_step ih.2 hstep⟩

end Accounted

/-! ## What is promised -/

/-- What is promised to those who give tasks to a pool with so many workers. -/
structure Kept (n : Nat) (s : Shift τ) : Prop extends Accounted n s where
  /-- A worker executes one task at a time. -/
  executing_le : s.executing.length ≤ n
  /-- A task that is given once is in one place at a time, and comes there once. -/
  once : s.submitted.Nodup →
    (s.executed.map (·.task) ++ s.executing ++ s.queued ++ s.dropped).Nodup
  /-- A task that was refused comes to no worker. -/
  refused : s.submitted.Nodup → ∀ t ∈ s.refused,
    t ∉ s.executed.map (·.task) ++ s.executing ++ s.queued ++ s.dropped
  /-- What is taken from a queue is taken in the order in which it was put there. -/
  inOrder (i : Nat) : s.takenFrom i <+: s.acceptedInto i
  /-- A worker goes on when its task has ended, and it makes no difference how. -/
  goesOn {i : Nat} {t : τ} (ending : TaskEnd) : s.pool.task? i = some t →
    (s.taskEnds i ending).pool = s.pool.setWorker i .checking
  /-- After a shutdown nothing more is executed or accepted. -/
  afterwards {u : Shift τ} : s.closed = true → Relation.ReflTransGen Step s u →
    Over s u ∧ u.executing = [] ∧ ∀ t, (u.pool.submit t).1 = false
  /-- What was accepted has been executed then, or is thrown away with the pool. -/
  consumed : s.closed = true → s.drop.queued = [] ∧
    (s.accepted.map Prod.snd).Perm (s.executed.map (·.task) ++ s.drop.dropped)

/-- Whatever happens while tasks are given to a pool and its workers work, every accepted task
is accounted for. -/
theorem kept_of_reachable {threads capacity : Nat} (h : Reachable threads capacity s) :
    Kept (max threads 1) s := by
  have hacc := accounted h
  exact
    { hacc with
      executing_le := hacc.workers ▸ List.length_filterMap_le _ _
      once := fun hnodup => by
        have haccepted := (List.nodup_append.1 (List.nodup_append.1 hnodup).1).1
        exact hacc.tasks.nodup_iff.1 haccepted
      refused := fun hnodup t ht hmem => by
        have hdisjoint := (List.nodup_append.1 (List.nodup_append.1 hnodup).1).2.2
        exact hdisjoint t (hacc.tasks.mem_iff.2 hmem) t ht rfl
      inOrder := fun i => by
        obtain ⟨lost, horder, -⟩ := hacc.order i
        rw [horder, List.append_assoc]
        exact List.prefix_append _ _
      goesOn := fun ending ht => by
        simp only [Shift.taskEnds, ht]
        exact (taskEnds_eq ht).2
      afterwards := fun hcl hsteps => by
        obtain ⟨hacc', hover⟩ := hacc.over_of_closed hcl hsteps
        exact ⟨hover, hacc'.executing_of_closed hover.closed,
          hacc'.submit_of_closed hover.closed⟩
      consumed := fun hcl => by
        have htasks := (hacc.drop hcl).tasks
        have hqueued : s.drop.queued = [] := by simp [Shift.drop, queued]
        have hexecuting : s.drop.executing = [] := hacc.executing_of_closed hcl
        rw [hqueued, hexecuting, List.append_nil, List.append_nil] at htasks
        exact ⟨hqueued, htasks⟩ }

/-- One worker, on which a task panics. The next task is thrown away with the pool, and
another one is refused. -/
def panickingShift : Shift Nat :=
  let given := (((({ pool := Pool.create 1 2 } : Shift Nat).claim 7).put 0).claim 8).put 0
  let worked := ((given.work 0).work 0).taskEnds 0 (.panicked "overflow")
  let stopped := ({ worked with pool := worked.pool.stop } : Shift Nat).work 0
  ({ stopped with closed := true } : Shift Nat).drop.claim 9

theorem kept_panickingShift : Reachable 1 2 panickingShift ∧
    panickingShift.executed = [{ worker := 0, task := 7, ending := .panicked "overflow" }] ∧
    panickingShift.dropped = [8] ∧ panickingShift.refused = [9] ∧ Kept 1 panickingShift := by
  have hgiven : Reachable 1 2 _ :=
    .step (.step (.step (.step .start (.claim _ 7)) (.put _ 0)) (.claim _ 8)) (.put _ 0)
  have hworked : Reachable 1 2 _ :=
    .step (.step (.step hgiven (.work _ 0)) (.work _ 0)) (.taskEnds _ 0 (.panicked "overflow"))
  have hstopped : Reachable 1 2 _ := .step (.step hworked (.stop _ rfl)) (.work _ 0)
  have hreach : Reachable 1 2 panickingShift :=
    .step (.step (.step hstopped (.close _ rfl (by decide))) (.drop _ rfl rfl)) (.claim _ 9)
  exact ⟨hreach, rfl, rfl, rfl, kept_of_reachable hreach⟩

end Shift

end HttpServer.Pool
