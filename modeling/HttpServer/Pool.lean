import HttpServer.Log
import HttpServer.Ring

/-!
# Worker pools

A fixed number of workers, each with a bounded queue of its own. Tasks are given to the
queues in turn, and a task whose queue is full is refused. A worker takes the oldest task of
its own queue, or else of the queue of the worker next to it, which is its donor. A task that
panics ends like any other.

A worker goes through phases, each of which touches one shared thing : the flag that the pool
is running, its own queue, or the queue of its donor.
-/

namespace HttpServer

/-- What a worker is doing. -/
inductive Worker (τ : Type) where
  /-- It is to look whether the pool is running. -/
  | checking
  /-- It is to take a task from its own queue. -/
  | own
  /-- It is to take a task from the queue of its donor. -/
  | donor
  /-- It executes a task. -/
  | executing (t : τ)
  /-- It has come to its end. -/
  | stopped
deriving DecidableEq, Repr, Inhabited

/-- A pool of workers. -/
structure Pool (τ : Type) where
  /-- How many tasks a queue holds. -/
  capacity : Nat
  /-- The queues, the oldest task of each in front. -/
  queues : List (List τ)
  /-- The workers, one for each queue. -/
  workers : List (Worker τ)
  /-- How many tasks have been given a queue. -/
  next : UInt64 := 0
  /-- The pool takes tasks and works on them. -/
  running : Bool := true
deriving DecidableEq, Repr

namespace Pool

variable {τ : Type}

/-- A pool of at least one worker. -/
def create (threads capacity : Nat) : Pool τ :=
  let n := max threads 1
  { capacity := Ring.roundCapacity capacity
    queues := List.replicate n []
    workers := List.replicate n .checking }

/-- The number of workers. -/
def threads (p : Pool τ) : Nat := p.queues.length

/-- The number of tasks that no worker has taken yet. -/
def pending (p : Pool τ) : Nat := p.queues.flatten.length

/-! ## Submission -/

/-- The queue for the next task; there is none in a pool that does not run. -/
def claim? (p : Pool τ) : Option (Nat × Pool τ) :=
  if p.running then some (p.next.toNat % p.threads, { p with next := p.next + 1 }) else none

/-- Puts a task into a queue, if it has room. -/
def offer? (p : Pool τ) (i : Nat) (t : τ) : Option (Pool τ) :=
  match p.queues[i]? with
  | none => none
  | some q =>
    if q.length < p.capacity then some { p with queues := p.queues.set i (q ++ [t]) } else none

/-- Gives a task to the pool, and tells whether it was accepted. -/
def submit (p : Pool τ) (t : τ) : Bool × Pool τ :=
  match p.claim? with
  | none => (false, p)
  | some (i, p') =>
    match p'.offer? i t with
    | some p'' => (true, p'')
    | none => (false, p')

/-! ## Work -/

/-- Takes the oldest task of a queue, if there is one. -/
def take? (p : Pool τ) (i : Nat) : Option (τ × Pool τ) :=
  match p.queues[i]? with
  | some (t :: q) => some (t, { p with queues := p.queues.set i q })
  | _ => none

/-- Another phase of a worker. -/
def setWorker (p : Pool τ) (i : Nat) (w : Worker τ) : Pool τ :=
  { p with workers := p.workers.set i w }

/-- The worker that a worker takes tasks from when it has none of its own. -/
def donorOf (p : Pool τ) (i : Nat) : Nat := (i + 1) % p.threads

/-- The next thing that a worker does by itself. One that executes a task does nothing else
until the task ends. -/
def workerStep (p : Pool τ) (i : Nat) : Pool τ :=
  match p.workers[i]? with
  | some .checking => p.setWorker i (if p.running then .own else .stopped)
  | some .own =>
    match p.take? i with
    | some (t, p') => p'.setWorker i (.executing t)
    | none => p.setWorker i .donor
  | some .donor =>
    match p.take? (p.donorOf i) with
    | some (t, p') => p'.setWorker i (.executing t)
    | none => p.setWorker i .checking
  | some (.executing _) | some .stopped | none => p

/-- The task that a worker executes ends; whether it returns or panics makes no difference
to the worker. -/
def taskEnds (p : Pool τ) (i : Nat) : Pool τ :=
  match p.workers[i]? with
  | some (.executing _) => p.setWorker i .checking
  | _ => p

/-- The task that a worker executes. -/
def task? (p : Pool τ) (i : Nat) : Option τ :=
  match p.workers[i]? with
  | some (.executing t) => some t
  | _ => none

/-- What is said about a task that panicked on a worker. -/
def panicked (i : Nat) (text : String) : LogLine :=
  { level := .error, message := s!"Task panicked on worker {i}: {text}" }

/-- Tells the workers to stop. -/
def stop (p : Pool τ) : Pool τ := { p with running := false }

/-- Stops the workers, each after its current task. What is queued stays there. -/
def shutdown (p : Pool τ) : Pool τ :=
  { p.stop with workers := p.workers.map fun _ => .stopped }

/-! ## Settling -/

/-- Lets one worker look for a task and execute it, if it is one of those that end. The
answer holds the task that ended. -/
def turn (ends : τ → Bool) (p : Pool τ) (i : Nat) : List (Nat × τ) × Pool τ :=
  let p := ((p.workerStep i).workerStep i).workerStep i
  match p.task? i with
  | some t => if ends t then ([(i, t)], p.taskEnds i) else ([], p)
  | none => ([], p)

/-- Lets workers have a turn, one after the other. -/
def turns (ends : τ → Bool) (p : Pool τ) : List Nat → List (Nat × τ) × Pool τ
  | [] => ([], p)
  | i :: l =>
    let (done, p) := p.turn ends i
    let (rest, p) := p.turns ends l
    (done ++ rest, p)

/-- Lets all workers have a number of turns. -/
def rounds (ends : τ → Bool) (p : Pool τ) : Nat → List (Nat × τ) × Pool τ
  | 0 => ([], p)
  | n + 1 =>
    let (done, p) := p.turns ends (List.range p.threads)
    let (rest, p) := p.rounds ends n
    (done ++ rest, p)

/-- Lets the workers go on for as long as any of them finds a task. The answer holds the
tasks that ended, in that order, each with its worker. -/
def settle (ends : τ → Bool) (p : Pool τ) : List (Nat × τ) × Pool τ :=
  p.rounds ends (p.pending + 1)

end Pool

end HttpServer
