import HttpServer.Pool

/-!
# Pools at work

Tasks are submitted while workers work, in any order of the single steps : a submission is
given its queue, it puts its task there, a worker goes through a phase, a task ends. A `Shift`
keeps beside the pool what became of every task. A pool is shut down by its only owner, so
no submission is under way then.
-/

namespace HttpServer

/-- The task that a worker executes. -/
def Worker.task? {τ : Type} : Worker τ → Option τ
  | executing t => some t
  | _ => none

namespace Pool

variable {τ : Type}

/-- The queue that a worker is to take a task from. -/
def source? (p : Pool τ) (i : Nat) : Option Nat :=
  match p.workers[i]? with
  | some .own => some i
  | some .donor => some (p.donorOf i)
  | _ => none

/-- The task that a worker takes as its next step, with the queue that it takes it from. -/
def takes? (p : Pool τ) (i : Nat) : Option (Nat × τ) :=
  match p.source? i with
  | some j => (p.take? j).map fun x => (j, x.1)
  | none => none

/-- How a task ended. -/
inductive TaskEnd where
  | returned
  /-- It panicked, with this to say about it. -/
  | panicked (text : String)
deriving DecidableEq, Repr

/-- What is said about the end of a task on a worker. -/
def TaskEnd.log (i : Nat) : TaskEnd → List LogLine
  | returned => []
  | panicked text => [Pool.panicked i text]

/-- A task that a worker took from a queue. -/
structure Taking (τ : Type) where
  worker : Nat
  queue : Nat
  task : τ
deriving DecidableEq, Repr

/-- A task that ended on a worker. -/
structure Execution (τ : Type) where
  worker : Nat
  task : τ
  ending : TaskEnd
deriving DecidableEq, Repr

/-- A pool with the history of its tasks. -/
structure Shift (τ : Type) where
  /-- The pool. -/
  pool : Pool τ
  /-- The submissions that have their queue and have not put their task there. -/
  claims : List (τ × Nat) := []
  /-- The tasks that were accepted, in the order in which they were queued, each with its
  queue. -/
  accepted : List (Nat × τ) := []
  /-- The tasks that were refused. -/
  refused : List τ := []
  /-- The tasks that were taken from their queues, in that order. -/
  taken : List (Taking τ) := []
  /-- The tasks that ended, in that order. -/
  executed : List (Execution τ) := []
  /-- The tasks that were thrown away with the pool. -/
  dropped : List τ := []
  /-- The pool was told to stop and all workers have stopped. -/
  closed : Bool := false
  /-- What was said. -/
  log : List LogLine := []
deriving DecidableEq, Repr

namespace Shift

/-- The tasks that workers execute. -/
def executing (s : Shift τ) : List τ := s.pool.workers.filterMap Worker.task?

/-- The tasks that wait in queues. -/
def queued (s : Shift τ) : List τ := s.pool.queues.flatten

/-- A submission is given its queue, or refused because the pool does not run. -/
def claim (s : Shift τ) (t : τ) : Shift τ :=
  match s.pool.claim? with
  | some (i, pool) => { s with pool, claims := s.claims ++ [(t, i)] }
  | none => { s with refused := s.refused ++ [t] }

/-- A submission puts its task into its queue, or finds it full. -/
def put (s : Shift τ) (k : Nat) : Shift τ :=
  match s.claims[k]? with
  | none => s
  | some (t, i) =>
    match s.pool.offer? i t with
    | some pool =>
      { s with pool, claims := s.claims.eraseIdx k, accepted := s.accepted ++ [(i, t)] }
    | none => { s with claims := s.claims.eraseIdx k, refused := s.refused ++ [t] }

/-- A worker does its next thing. -/
def work (s : Shift τ) (i : Nat) : Shift τ :=
  { s with
    pool := s.pool.workerStep i
    taken := match s.pool.takes? i with
      | some (j, t) => s.taken ++ [{ worker := i, queue := j, task := t }]
      | none => s.taken }

/-- A task ends. -/
def taskEnds (s : Shift τ) (i : Nat) (ending : TaskEnd) : Shift τ :=
  match s.pool.task? i with
  | some t =>
    { s with
      pool := s.pool.taskEnds i
      executed := s.executed ++ [{ worker := i, task := t, ending }]
      log := s.log ++ ending.log i }
  | none => s

/-- The queued tasks are thrown away. -/
def drop (s : Shift τ) : Shift τ :=
  { s with
    pool := { s.pool with queues := s.pool.queues.map fun _ => [] }
    dropped := s.dropped ++ s.queued }

/-- One thing happens. -/
inductive Step : Shift τ → Shift τ → Prop where
  | claim (s : Shift τ) (t : τ) : Step s (s.claim t)
  | put (s : Shift τ) (k : Nat) : Step s (s.put k)
  | work (s : Shift τ) (i : Nat) : Step s (s.work i)
  | taskEnds (s : Shift τ) (i : Nat) (ending : TaskEnd) : Step s (s.taskEnds i ending)
  | stop (s : Shift τ) : s.claims = [] → Step s { s with pool := s.pool.stop }
  | close (s : Shift τ) :
    s.pool.running = false → (∀ w ∈ s.pool.workers, w = .stopped) →
      Step s { s with closed := true }
  | drop (s : Shift τ) : s.closed = true → s.claims = [] → Step s s.drop

/-- What can come of a new pool. -/
inductive Reachable (threads capacity : Nat) : Shift τ → Prop where
  | start : Reachable threads capacity { pool := Pool.create threads capacity }
  | step {s t : Shift τ} :
    Reachable threads capacity s → Step s t → Reachable threads capacity t

end Shift

end Pool

end HttpServer
