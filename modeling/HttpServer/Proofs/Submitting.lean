import HttpServer.Proofs.Ring.Solitary
import HttpServer.Proofs.Working
import Mathlib.Data.Int.CardIntervalMod

/-!
# Submissions in turn

The queues of a pool are given tasks in turn. Every submission counts, also one that is refused,
so the turn does not depend on what becomes of the tasks.

A shift goes on together with the rings that hold the queues of its pool (`Pool.Shift.OnRings`) :
a task that is put into a queue is put into its ring, and a worker that looks into a queue takes
from its ring. The rings answer what the queues say (`Pool.Shift.Mirrors`).

When the queues are empty and no worker takes a task, they fill evenly, wherever the turn starts
(`Pool.Filled`) : a queue has its turn once in a round, so that none is full before the last place
of all is taken. `Pool.Shift.Submits` is such a time, in which workers may still look around and
tasks may end. `Pool.Shift.takesTurns_of_reachable` is what is promised to those who submit tasks.
-/

namespace HttpServer.Pool

variable {τ : Type}

/-! ## Turns -/

/-- So many submissions, counted on from the `b`-th, leave the turn at queue `i` that often. -/
def turnsOf (n b i k : Nat) : Nat := Nat.count (fun x => (b + x) % n = i) k

theorem turnsOf_succ_self {n b k : Nat} :
    turnsOf n b ((b + k) % n) (k + 1) = turnsOf n b ((b + k) % n) k + 1 := by
  rw [turnsOf, Nat.count_succ, if_pos rfl]
  rfl

theorem turnsOf_succ_of_ne {n b i k : Nat} (h : (b + k) % n ≠ i) :
    turnsOf n b i (k + 1) = turnsOf n b i k := by
  rw [turnsOf, Nat.count_succ, if_neg h]
  rfl

/-- Wherever the count starts, every queue has its turn once in a round. -/
theorem turnsOf_rounds {n i : Nat} (b : Nat) (hi : i < n) (c : Nat) :
    turnsOf n b i (n * c) = c := by
  have hn : 0 < n := Nat.zero_lt_of_lt hi
  -- the turns of a queue are one residue class, whatever the first submission is
  have hround : b + (i + (n - b % n)) ≡ i [MOD n] := by
    have hb := Nat.div_add_mod b n
    have hlt := Nat.mod_lt b hn
    have heq : b + (i + (n - b % n)) = i + n * (b / n + 1) := by
      rw [Nat.mul_add, Nat.mul_one]
      omega
    rw [heq]
    exact Nat.add_mul_mod_self_left i n _
  have hturn (x : Nat) : (b + x) % n = i ↔ x ≡ i + (n - b % n) [MOD n] := by
    constructor
    · intro h
      have hx : b + x ≡ i [MOD n] := h.trans (Nat.mod_eq_of_lt hi).symm
      exact Nat.ModEq.add_left_cancel' b (hx.trans hround.symm)
    · intro h
      exact Eq.trans ((h.add_left b).trans hround) (Nat.mod_eq_of_lt hi)
  have hcount := Nat.count_modEq_card (n * c) hn (i + (n - b % n))
  rw [Nat.mul_mod_right, if_neg (Nat.not_lt_zero _), Nat.add_zero,
    Nat.mul_div_cancel_left c hn] at hcount
  simp only [turnsOf, hturn]
  exact hcount

/-- Until the last round is over, the queue whose turn it is had fewer turns than there are
rounds. -/
theorem turnsOf_lt {n b c k : Nat} (hn : 0 < n) (hk : k < n * c) :
    turnsOf n b ((b + k) % n) k < c := by
  have hrounds := turnsOf_rounds b (Nat.mod_lt (b + k) hn) c
  rw [← hrounds]
  exact Nat.count_strict_mono rfl hk

/-! ## What workers do to the queues -/

theorem modify_eq_set {qs : List (List τ)} {i : Nat} {q : List τ} (h : qs[i]? = some q)
    (f : List τ → List τ) : qs.modify i f = qs.set i (f q) := by
  rw [List.modify_eq_set_getElem?, h]
  rfl

theorem modify_eq_self {qs : List (List τ)} {i : Nat} {q : List τ} (h : qs[i]? = some q)
    {f : List τ → List τ} (hf : f q = q) : qs.modify i f = qs := by
  obtain ⟨hi, rfl⟩ := List.getElem?_eq_some_iff.1 h
  rw [modify_eq_set h, hf, List.set_getElem_self]

/-- The pools differ in their workers alone, and in the queues in the way described. -/
structure Alters (f : List (List τ) → List (List τ)) (p p' : Pool τ) : Prop where
  queues : p'.queues = f p.queues
  capacity : p'.capacity = p.capacity
  next : p'.next = p.next
  running : p'.running = p.running

/-- A worker that looks into a queue takes its oldest task. -/
theorem alters_of_looking (p : Pool τ) (i j : Nat) (w : Worker τ) :
    Alters (·.modify j List.tail) p
      (match p.take? j with
        | some (t, p') => p'.setWorker i (.executing t)
        | none => p.setWorker i w) := by
  unfold take?
  rcases hq : p.queues[j]? with _ | _ | ⟨t, q⟩
  · exact ⟨(List.modify_eq_self (List.getElem?_eq_none_iff.1 hq)).symm, rfl, rfl, rfl⟩
  · exact ⟨(modify_eq_self hq rfl).symm, rfl, rfl, rfl⟩
  · exact ⟨(modify_eq_set hq List.tail).symm, rfl, rfl, rfl⟩

/-- A worker that takes no task leaves the queues alone. -/
theorem alters_of_takes_none {p : Pool τ} {i : Nat} (h : p.takes? i = none) :
    Alters id p (p.workerStep i) := by
  have hdoes := does p i
  rw [h] at hdoes
  generalize p.workerStep i = p' at hdoes ⊢
  cases hdoes with
  | rests => exact ⟨rfl, rfl, rfl, rfl⟩
  | goesOn => exact ⟨rfl, rfl, rfl, rfl⟩

theorem alters_of_source {p : Pool τ} {i j : Nat} (h : p.source? i = some j) :
    Alters (·.modify j List.tail) p (p.workerStep i) := by
  unfold source? at h
  unfold workerStep
  rcases hw : p.workers[i]? with _ | _ | _ | _ | t | _ <;> rw [hw] at h
  · cases h
  · cases h
  · cases h
    exact alters_of_looking p i i .donor
  · cases h
    exact alters_of_looking p i (p.donorOf i) .checking
  · cases h
  · cases h

theorem alters_taskEnds (p : Pool τ) (i : Nat) : Alters id p (p.taskEnds i) := by
  unfold taskEnds
  split <;> exact ⟨rfl, rfl, rfl, rfl⟩

/-! ## Filling the queues -/

/-- A pool with `n` queues of capacity `c` after `k` submissions into empty queues, counted on from
the `b`-th, with no task taken in between. -/
structure Filled (n c b k : Nat) (p : Pool τ) : Prop where
  running : p.running = true
  threads : p.threads = n
  capacity : p.capacity = c
  next : p.next = .ofNat (b + k)
  /-- A queue has had as many tasks as turns, up to the round that fills all of them. -/
  length {i : Nat} {q : List τ} : p.queues[i]? = some q → q.length = turnsOf n b i (min k (n * c))
  pending : p.pending = min k (n * c)

theorem offer?_of_getElem? {p : Pool τ} {i : Nat} {q : List τ} (hq : p.queues[i]? = some q)
    (t : τ) :
    p.offer? i t = if q.length < p.capacity then
        some { p with queues := p.queues.set i (q ++ [t]) }
      else none := by
  rw [offer?, hq]

/-- A submission goes to the queue whose turn it is, and is accepted exactly if that has room. -/
theorem submit_eq {p : Pool τ} {j : Nat} {q : List τ} (hr : p.running = true)
    (hn : p.next = .ofNat j) (hj : j < 2 ^ 64) (hq : p.queues[j % p.threads]? = some q) (t : τ) :
    p.submit t = if q.length < p.capacity then
        (true, { p with next := .ofNat (j + 1), queues := p.queues.set (j % p.threads) (q ++ [t]) })
      else (false, { p with next := .ofNat (j + 1) }) := by
  have hturn : p.next.toNat = j := by
    rw [hn, UInt64.toNat_ofNat', Nat.mod_eq_of_lt hj]
  have hnext : p.next + 1 = .ofNat (j + 1) := by
    rw [hn, UInt64.ofNat_add]
    rfl
  have hoffer := offer?_of_getElem? (p := { p with next := .ofNat (j + 1) }) hq t
  rw [submit, claim?, if_pos hr, hturn, hnext]
  dsimp only
  rw [hoffer]
  by_cases hroom : q.length < p.capacity
  · rw [if_pos hroom, if_pos hroom]
  · rw [if_neg hroom, if_neg hroom]

theorem pending_set {p : Pool τ} {i : Nat} {q : List τ} (hq : p.queues[i]? = some q) (t : τ) :
    (p.queues.set i (q ++ [t])).flatten.length = p.pending + 1 := by
  have hperm := (perm_flatten_set hq (q ++ [t])).length_eq
  rw [List.length_append, List.length_append, List.length_append, List.length_singleton] at hperm
  rw [pending]
  omega

namespace Filled

variable {n c b k : Nat} {p : Pool τ}

/-- The queue whose turn it is. -/
theorem exists_queue (h : Filled n c b k p) (hn : 0 < n) :
    ∃ q, p.queues[(b + k) % p.threads]? = some q ∧
      q.length = turnsOf n b ((b + k) % n) (min k (n * c)) := by
  obtain ⟨-, rfl, -, -, hlength, -⟩ := h
  have hi : (b + k) % p.threads < p.queues.length := Nat.mod_lt (b + k) hn
  exact ⟨_, List.getElem?_eq_getElem hi, hlength (List.getElem?_eq_getElem hi)⟩

/-- As long as there is a place left, the queue whose turn it is has one. -/
theorem submit_of_lt (h : Filled n c b k p) (hn : 0 < n) (hk : k < n * c) (hb : b + k < 2 ^ 64)
    (t : τ) : (p.submit t).1 = true ∧ Filled n c b (k + 1) (p.submit t).2 := by
  obtain ⟨q, hq, hlen⟩ := h.exists_queue hn
  obtain ⟨hr, rfl, rfl, hnext, hlength, hpending⟩ := h
  rw [Nat.min_eq_left (Nat.le_of_lt hk)] at hlength hlen hpending
  have hroom := turnsOf_lt (b := b) hn hk
  rw [← hlen] at hroom
  rw [submit_eq hr hnext hb hq, if_pos hroom]
  refine ⟨rfl, hr, List.length_set, rfl, rfl, fun {i q'} hq' => ?_, ?_⟩
  · rw [Nat.min_eq_left hk]
    rw [List.getElem?_set] at hq'
    split at hq'
    · rename_i hturn
      subst hturn
      rw [turnsOf_succ_self, ← hlen]
      split at hq'
      · rw [← Option.some.inj hq', List.length_append, List.length_singleton]
      · cases hq'
    · rename_i hturn
      rw [turnsOf_succ_of_ne hturn, hlength hq']
  · rw [Nat.min_eq_left hk]
    exact (pending_set hq t).trans (congrArg (· + 1) hpending)

/-- When all places are taken, every submission is refused and changes no queue. -/
theorem submit_of_ge (h : Filled n c b k p) (hn : 0 < n) (hk : n * c ≤ k) (hb : b + k < 2 ^ 64)
    (t : τ) : (p.submit t).1 = false ∧ (p.submit t).2.queues = p.queues ∧
      Filled n c b (k + 1) (p.submit t).2 := by
  obtain ⟨q, hq, hlen⟩ := h.exists_queue hn
  obtain ⟨hr, rfl, rfl, hnext, hlength, hpending⟩ := h
  rw [Nat.min_eq_right hk] at hlength hlen hpending
  rw [turnsOf_rounds b (Nat.mod_lt (b + k) hn)] at hlen
  rw [submit_eq hr hnext hb hq, if_neg (Nat.not_lt.2 (Nat.le_of_eq hlen.symm))]
  refine ⟨rfl, rfl, hr, rfl, rfl, rfl, fun hq' => ?_, ?_⟩
  · rw [Nat.min_eq_right (Nat.le_succ_of_le hk), hlength hq']
  · rw [Nat.min_eq_right (Nat.le_succ_of_le hk)]
    exact hpending

/-- Whatever leaves the queues alone leaves the count alone. -/
theorem alters (h : Filled n c b k p) {p' : Pool τ} (ha : Alters id p p') :
    Filled n c b k p' where
  running := ha.running.trans h.running
  threads := (congrArg List.length ha.queues).trans h.threads
  capacity := ha.capacity.trans h.capacity
  next := ha.next.trans h.next
  length hq := by
    rw [ha.queues] at hq
    exact h.length hq
  pending := (congrArg (·.flatten.length) ha.queues).trans h.pending

end Filled

/-! ## Queues on rings -/

/-- The rings hold the queues. -/
structure HoldQueues (c : Nat) (rs : List (Ring τ)) (qs : List (List τ)) : Prop where
  length_eq : rs.length = qs.length
  keeps {i : Nat} {r : Ring τ} {q : List τ} : rs[i]? = some r → qs[i]? = some q →
    r.capacity = c ∧ ∃ d, r.Keeps d q

namespace HoldQueues

variable {c : Nat} {rs : List (Ring τ)} {qs : List (List τ)}

theorem create (n capacity : Nat) : HoldQueues (Ring.roundCapacity capacity)
    (List.replicate n (Ring.withCapacity capacity)) (List.replicate n ([] : List τ)) where
  length_eq := by rw [List.length_replicate, List.length_replicate]
  keeps {i r q} hr hq := by
    obtain rfl := (List.mem_replicate.1 (List.mem_of_getElem? hr)).2
    obtain rfl := (List.mem_replicate.1 (List.mem_of_getElem? hq)).2
    exact ⟨Ring.capacity_withCapacity capacity, 0, Ring.keeps_withCapacity capacity⟩

/-- A call on one of the rings is the same call on its queue. -/
theorem modify (h : HoldQueues c rs qs) (i : Nat) (op : Ring.Op τ) :
    HoldQueues c (rs.modify i op.onRing) (qs.modify i fun q => op.onQueue c q) where
  length_eq := by rw [List.length_modify, List.length_modify, h.length_eq]
  keeps {j r q} hr hq := by
    rw [List.getElem?_modify] at hr hq
    obtain ⟨r', hr', rfl⟩ := Option.map_eq_some_iff.1 hr
    obtain ⟨q', hq', rfl⟩ := Option.map_eq_some_iff.1 hq
    obtain ⟨rfl, d, hkeeps⟩ := h.keeps hr' hq'
    split
    · exact hkeeps.op op
    · exact ⟨rfl, d, hkeeps⟩

/-- The rings count what the queues hold. -/
theorem sum_length (h : HoldQueues c rs qs) : (rs.map Ring.length).sum = qs.flatten.length := by
  have hmap : rs.map Ring.length = qs.map List.length := by
    refine List.ext_getElem (by rw [List.length_map, List.length_map, h.length_eq])
      fun i hi hi' => ?_
    rw [List.length_map] at hi hi'
    obtain ⟨-, d, hkeeps⟩ := h.keeps (List.getElem?_eq_getElem hi) (List.getElem?_eq_getElem hi')
    rw [List.getElem_map, List.getElem_map, hkeeps.length_eq]
  rw [hmap, List.length_flatten]

end HoldQueues

namespace Shift

variable {s : Shift τ} {rs : List (Ring τ)} {threads capacity : Nat}

/-- What can come of a new pool that is not stopped, with the rings that hold its queues. -/
inductive OnRings (threads capacity : Nat) : List (Ring τ) → Shift τ → Prop where
  | start : OnRings threads capacity (List.replicate (max threads 1) (.withCapacity capacity))
      { pool := Pool.create threads capacity }
  | claim {rs : List (Ring τ)} {s : Shift τ} (t : τ) :
    OnRings threads capacity rs s → OnRings threads capacity rs (s.claim t)
  /-- A submission puts its task into the ring. -/
  | put {rs : List (Ring τ)} {s : Shift τ} {k i : Nat} {t : τ} :
    OnRings threads capacity rs s → s.claims[k]? = some (t, i) →
      OnRings threads capacity (rs.modify i (Ring.Op.push t).onRing) (s.put k)
  /-- A worker that looks into no queue goes on. -/
  | goesOn {rs : List (Ring τ)} {s : Shift τ} {i : Nat} :
    OnRings threads capacity rs s → s.pool.source? i = none → OnRings threads capacity rs (s.work i)
  /-- A worker that looks into a queue takes from its ring. -/
  | looks {rs : List (Ring τ)} {s : Shift τ} {i j : Nat} :
    OnRings threads capacity rs s → s.pool.source? i = some j →
      OnRings threads capacity (rs.modify j Ring.Op.pop.onRing) (s.work i)
  | taskEnds {rs : List (Ring τ)} {s : Shift τ} (i : Nat) (ending : TaskEnd) :
    OnRings threads capacity rs s → OnRings threads capacity rs (s.taskEnds i ending)

/-- The rings and the turn are what the pool says. -/
structure Mirrors (threads capacity : Nat) (rs : List (Ring τ)) (s : Shift τ) : Prop where
  running : s.pool.running = true
  threads_eq : s.pool.threads = max threads 1
  capacity_eq : s.pool.capacity = Ring.roundCapacity capacity
  next : s.pool.next = .ofNat s.submitted.length
  claims : ∀ x ∈ s.claims, x.2 < max threads 1
  rings : HoldQueues (Ring.roundCapacity capacity) rs s.pool.queues

namespace Mirrors

theorem create : Mirrors threads capacity (List.replicate (max threads 1) (.withCapacity capacity))
    ({ pool := Pool.create threads capacity } : Shift τ) where
  running := rfl
  threads_eq := List.length_replicate
  capacity_eq := rfl
  next := rfl
  claims _ h := absurd h List.not_mem_nil
  rings := .create (max threads 1) capacity

/-- While the pool runs, a submission is given the queue whose turn it is, and counted. -/
theorem claim_eq (h : Mirrors threads capacity rs s) (t : τ) :
    s.claim t = { s with
      pool := { s.pool with next := .ofNat (s.submitted.length + 1) }
      claims := s.claims ++ [(t, s.pool.next.toNat % max threads 1)] } := by
  have hnext : s.pool.next + 1 = .ofNat (s.submitted.length + 1) := by
    rw [h.next, UInt64.ofNat_add]
    rfl
  rw [Shift.claim, claim?, if_pos h.running, h.threads_eq, hnext]

theorem claim (h : Mirrors threads capacity rs s) (t : τ) :
    Mirrors threads capacity rs (s.claim t) := by
  have hcount : (s.claim t).submitted.length = s.submitted.length + 1 :=
    (submitted_claim s t).length_eq
  rw [h.claim_eq] at hcount ⊢
  refine ⟨h.running, h.threads_eq, h.capacity_eq, by rw [hcount], fun x hx => ?_, h.rings⟩
  rcases List.mem_append.1 hx with hx | hx
  · exact h.claims x hx
  · rw [List.mem_singleton.1 hx]
    exact Nat.mod_lt _ (Nat.lt_of_lt_of_le Nat.one_pos (Nat.le_max_right threads 1))

theorem exists_queue (h : Mirrors threads capacity rs s) {i : Nat} (hi : i < max threads 1) :
    ∃ r q, rs[i]? = some r ∧ s.pool.queues[i]? = some q := by
  have hqueue : i < s.pool.queues.length := hi.trans_eq h.threads_eq.symm
  have hring : i < rs.length := hqueue.trans_eq h.rings.length_eq.symm
  exact ⟨_, _, List.getElem?_eq_getElem hring, List.getElem?_eq_getElem hqueue⟩

/-- A submission is accepted exactly if its queue has room, and touches no other queue. -/
theorem put_eq (h : Mirrors threads capacity rs s) {k i : Nat} {t : τ} {q : List τ}
    (hc : s.claims[k]? = some (t, i)) (hq : s.pool.queues[i]? = some q) :
    s.put k = if q.length < Ring.roundCapacity capacity then
        { s with
          pool := { s.pool with queues := s.pool.queues.set i (q ++ [t]) }
          claims := s.claims.eraseIdx k
          accepted := s.accepted ++ [(i, t)] }
      else { s with claims := s.claims.eraseIdx k, refused := s.refused ++ [t] } := by
  rw [Shift.put, hc]
  dsimp only
  rw [offer?_of_getElem? hq, ← h.capacity_eq]
  by_cases hroom : q.length < s.pool.capacity
  · rw [if_pos hroom, if_pos hroom]
  · rw [if_neg hroom, if_neg hroom]

theorem put (h : Mirrors threads capacity rs s) {k i : Nat} {t : τ}
    (hc : s.claims[k]? = some (t, i)) :
    Mirrors threads capacity (rs.modify i (Ring.Op.push t).onRing) (s.put k) := by
  have hcount : (s.put k).submitted.length = s.submitted.length :=
    (submitted_put s k).length_eq
  have hrings := h.rings.modify i (.push t)
  obtain ⟨r, q, -, hq⟩ := h.exists_queue (h.claims _ (List.mem_of_getElem? hc))
  rw [modify_eq_set hq] at hrings
  rw [h.put_eq hc hq] at hcount ⊢
  simp only [Ring.Op.onQueue] at hrings
  have hclaims : ∀ x ∈ s.claims.eraseIdx k, x.2 < max threads 1 :=
    fun x hx => h.claims x (List.mem_of_mem_eraseIdx hx)
  split
  · rename_i hroom
    rw [if_pos hroom] at hcount hrings
    refine ⟨h.running, List.length_set.trans h.threads_eq, h.capacity_eq, ?_, hclaims, hrings⟩
    rw [hcount]
    exact h.next
  · rename_i hfull
    rw [if_neg hfull] at hcount hrings
    refine ⟨h.running, h.threads_eq, h.capacity_eq, ?_, hclaims, ?_⟩
    · rw [hcount]
      exact h.next
    · rwa [← modify_eq_set hq (fun q => q), modify_eq_self hq rfl] at hrings

/-- What workers do gives nobody a turn. -/
theorem alters (h : Mirrors threads capacity rs s) {rs' : List (Ring τ)} {u : Shift τ}
    {f : List (List τ) → List (List τ)} (hpool : Alters f s.pool u.pool)
    (hclaims : u.claims = s.claims) (hsubmitted : u.submitted = s.submitted)
    (hrings : HoldQueues (Ring.roundCapacity capacity) rs' (f s.pool.queues))
    (hlen : rs'.length = rs.length) : Mirrors threads capacity rs' u where
  running := hpool.running.trans h.running
  threads_eq := by
    rw [← h.threads_eq, Pool.threads, Pool.threads, hpool.queues, ← hrings.length_eq, hlen,
      h.rings.length_eq]
  capacity_eq := hpool.capacity.trans h.capacity_eq
  next := by rw [hpool.next, hsubmitted, h.next]
  claims := hclaims ▸ h.claims
  rings := hpool.queues ▸ hrings

end Mirrors

/-- What happens to a pool happens to its rings. -/
theorem mirrors_of_onRings (h : OnRings threads capacity rs s) :
    Mirrors threads capacity rs s := by
  induction h with
  | start => exact .create
  | claim t _ ih => exact ih.claim t
  | put _ hc ih => exact ih.put hc
  | goesOn _ hsource ih =>
    exact ih.alters (alters_of_takes_none (by rw [takes?, hsource])) rfl rfl ih.rings rfl
  | looks _ hsource ih =>
    exact ih.alters (alters_of_source hsource) rfl rfl (ih.rings.modify _ .pop)
      (List.length_modify _ _ _)
  | @taskEnds rs s i ending _ ih =>
    unfold Shift.taskEnds
    split
    · exact ih.alters (alters_taskEnds s.pool i) rfl rfl ih.rings rfl
    · exact ih

/-! What a submission or a worker does starts and stops no pool. -/

theorem running_claim (s : Shift τ) (t : τ) : (s.claim t).pool.running = s.pool.running := by
  unfold Shift.claim claim?
  split
  · rename_i hclaim
    split at hclaim
    · cases hclaim
      rfl
    · cases hclaim
  · rfl

theorem running_put (s : Shift τ) (k : Nat) : (s.put k).pool.running = s.pool.running := by
  unfold Shift.put
  split
  · rfl
  · split
    · rename_i hoffer
      obtain ⟨q, -, rfl⟩ := offer?_eq_some hoffer
      rfl
    · rfl

theorem running_work (s : Shift τ) (i : Nat) : (s.work i).pool.running = s.pool.running := by
  have hdoes := does s.pool i
  change (s.pool.workerStep i).running = s.pool.running
  generalize s.pool.takes? i = x, s.pool.workerStep i = p at hdoes ⊢
  cases hdoes <;> rfl

/-- The end of a task leaves the queues alone. -/
theorem alters_taskEnds (s : Shift τ) (i : Nat) (ending : TaskEnd) :
    Alters id s.pool (s.taskEnds i ending).pool := by
  unfold Shift.taskEnds
  split
  · exact Pool.alters_taskEnds s.pool i
  · exact ⟨rfl, rfl, rfl, rfl⟩

/-- While a pool runs, there are rings for it. -/
theorem exists_onRings (h : Reachable threads capacity s) (hr : s.pool.running = true) :
    ∃ rs, OnRings threads capacity rs s := by
  induction h with
  | start => exact ⟨_, .start⟩
  | @step s u hs hstep ih =>
    cases hstep with
    | claim t =>
      obtain ⟨rs, hrs⟩ := ih (by rwa [running_claim] at hr)
      exact ⟨rs, hrs.claim t⟩
    | put k =>
      obtain ⟨rs, hrs⟩ := ih (by rwa [running_put] at hr)
      rcases hc : s.claims[k]? with _ | ⟨t, i⟩
      · rw [Shift.put, hc]
        exact ⟨rs, hrs⟩
      · exact ⟨_, hrs.put hc⟩
    | work i =>
      obtain ⟨rs, hrs⟩ := ih (by rwa [running_work] at hr)
      rcases hsource : s.pool.source? i with _ | j
      · exact ⟨rs, hrs.goesOn hsource⟩
      · exact ⟨_, hrs.looks hsource⟩
    | taskEnds i ending =>
      obtain ⟨rs, hrs⟩ := ih ((alters_taskEnds s i ending).running ▸ hr)
      exact ⟨rs, hrs.taskEnds i ending⟩
    | stop => cases hr
    | close hstop =>
      rw [hstop] at hr
      cases hr
    | drop hclosed =>
      have hstop := ((accounted hs).closed hclosed).1
      rw [Shift.drop, hstop] at hr
      cases hr

/-! ## Runs of submissions -/

/-- Tasks are submitted, one after the other, and no worker takes a task meanwhile. The answers
tell which tasks were accepted. -/
inductive Submits : Shift τ → List τ → List Bool → Shift τ → Prop where
  | done (s : Shift τ) : Submits s [] [] s
  | submit {s s' : Shift τ} {t : τ} {ts : List τ} {bs : List Bool} :
    Submits ((s.claim t).put s.claims.length) ts bs s' →
      Submits s (t :: ts) ((s.pool.submit t).1 :: bs) s'
  | goesOn {s s' : Shift τ} {ts : List τ} {bs : List Bool} {i : Nat} :
    s.pool.takes? i = none → Submits (s.work i) ts bs s' → Submits s ts bs s'
  | taskEnds {s s' : Shift τ} {ts : List τ} {bs : List Bool} (i : Nat) (ending : TaskEnd) :
    Submits (s.taskEnds i ending) ts bs s' → Submits s ts bs s'

theorem pool_put_claim (s : Shift τ) (t : τ) :
    ((s.claim t).put s.claims.length).pool = (s.pool.submit t).2 := by
  obtain ⟨i, h⟩ := put_claim s t
  rw [h]
  split <;> rfl

/-- Nobody who submits has to wait. -/
theorem exists_submits (s : Shift τ) (ts : List τ) : ∃ bs s', Submits s ts bs s' := by
  induction ts generalizing s with
  | nil => exact ⟨[], s, .done s⟩
  | cons t ts ih =>
    obtain ⟨bs, s', h⟩ := ih ((s.claim t).put s.claims.length)
    exact ⟨_, s', h.submit⟩

/-- Empty queues are filled from wherever the turn is. -/
theorem Mirrors.filled (h : Mirrors threads capacity rs s) (hempty : ∀ q ∈ s.pool.queues, q = []) :
    Filled (max threads 1) (Ring.roundCapacity capacity) s.submitted.length 0 s.pool where
  running := h.running
  threads := h.threads_eq
  capacity := h.capacity_eq
  next := h.next
  length hq := by
    rw [hempty _ (List.mem_of_getElem? hq), Nat.zero_min]
    rfl
  pending := by
    rw [Nat.zero_min, Pool.pending, List.flatten_eq_nil_iff.2 hempty]
    rfl

namespace Submits

variable {s' : Shift τ} {ts : List τ} {bs : List Bool} {n c b k : Nat}

theorem reachable (h : Submits s ts bs s') (hs : Reachable threads capacity s) :
    Reachable threads capacity s' := by
  induction h with
  | done => exact hs
  | @submit s _ t _ _ _ ih => exact ih ((hs.step (.claim s t)).step (.put _ _))
  | @goesOn s _ _ _ i _ _ ih => exact ih (hs.step (.work s i))
  | @taskEnds s _ _ _ i ending _ ih => exact ih (hs.step (.taskEnds s i ending))

/-- When all places are taken, all tasks are refused, and the queues stay as they are. -/
theorem refused (h : Submits s ts bs s') (hf : Filled n c b k s.pool) (hn : 0 < n)
    (hk : n * c ≤ k) (hb : b + k + ts.length ≤ 2 ^ 64) :
    bs = List.replicate ts.length false ∧ s'.pool.queues = s.pool.queues ∧
      Filled n c b (k + ts.length) s'.pool := by
  induction h generalizing k with
  | done => exact ⟨rfl, rfl, hf⟩
  | @submit s _ t ts _ _ ih =>
    rw [List.length_cons] at hb ⊢
    obtain ⟨hfalse, hsame, hnext⟩ := hf.submit_of_ge hn hk (by omega) t
    rw [← pool_put_claim] at hsame hnext
    obtain ⟨hanswers, hqueues, hlast⟩ := ih hnext (by omega) (by omega)
    refine ⟨by rw [hfalse, hanswers, List.replicate_succ], hqueues.trans hsame, ?_⟩
    rwa [Nat.add_assoc, Nat.add_comm 1] at hlast
  | goesOn htakes _ ih =>
    have ha := alters_of_takes_none htakes
    obtain ⟨hanswers, hqueues, hlast⟩ := ih (hf.alters ha) hk hb
    exact ⟨hanswers, hqueues.trans ha.queues, hlast⟩
  | @taskEnds s _ _ _ i ending _ ih =>
    have ha := alters_taskEnds s i ending
    obtain ⟨hanswers, hqueues, hlast⟩ := ih (hf.alters ha) hk hb
    exact ⟨hanswers, hqueues.trans ha.queues, hlast⟩

/-- The first tasks are accepted until all places are taken, and the others are refused. -/
theorem filled (h : Submits s ts bs s') (hf : Filled n c b k s.pool) (hn : 0 < n)
    (hb : b + k + ts.length ≤ 2 ^ 64) :
    bs = List.replicate (min ts.length (n * c - k)) true ++
        List.replicate (ts.length - (n * c - k)) false ∧
      Filled n c b (k + ts.length) s'.pool ∧
      ∃ u, Submits s (ts.take (n * c - k)) (bs.take (n * c - k)) u ∧
        Submits u (ts.drop (n * c - k)) (bs.drop (n * c - k)) s' ∧
        s'.pool.queues = u.pool.queues := by
  induction h generalizing k with
  | done s =>
    refine ⟨by simp, hf, s, ?_, ?_, rfl⟩
    · simpa using Submits.done s
    · simpa using Submits.done s
  | @submit s s' t ts bs hrest ih =>
    rcases Nat.lt_or_ge k (n * c) with hk | hk
    · rw [List.length_cons] at hb ⊢
      obtain ⟨htrue, hnext⟩ := hf.submit_of_lt hn hk (by omega) t
      rw [← pool_put_claim] at hnext
      obtain ⟨hanswers, hlast, u, hfirst, hothers, hqueues⟩ := ih hnext (by omega)
      obtain ⟨d, hd⟩ : ∃ d, n * c - k = d + 1 := ⟨n * c - k - 1, by omega⟩
      have hd' : n * c - (k + 1) = d := by omega
      rw [hd'] at hanswers hfirst hothers
      rw [hd]
      refine ⟨?_, ?_, u, ?_, ?_, hqueues⟩
      · rw [htrue, hanswers, Nat.succ_min_succ, Nat.succ_sub_succ, List.replicate_succ,
          List.cons_append]
      · rwa [Nat.add_assoc, Nat.add_comm 1] at hlast
      · rw [List.take_succ_cons, List.take_succ_cons]
        exact hfirst.submit
      · rwa [List.drop_succ_cons, List.drop_succ_cons]
    · obtain ⟨hanswers, hqueues, hlast⟩ := hrest.submit.refused hf hn hk hb
      rw [Nat.sub_eq_zero_of_le hk, hanswers]
      refine ⟨by simp, hlast, s, .done s, ?_, hqueues⟩
      rw [← hanswers]
      exact hrest.submit
  | goesOn htakes _ ih =>
    obtain ⟨hanswers, hlast, u, hfirst, hothers, hqueues⟩ :=
      ih (hf.alters (alters_of_takes_none htakes)) hb
    exact ⟨hanswers, hlast, u, hfirst.goesOn htakes, hothers, hqueues⟩
  | @taskEnds s _ _ _ i ending _ ih =>
    obtain ⟨hanswers, hlast, u, hfirst, hothers, hqueues⟩ :=
      ih (hf.alters (alters_taskEnds s i ending)) hb
    exact ⟨hanswers, hlast, u, hfirst.taskEnds i ending, hothers, hqueues⟩

end Submits

/-! ## What is promised -/

/-- What is promised to those who submit tasks to a running pool, with the rings that hold its
queues. -/
structure TakesTurns (threads capacity : Nat) (rs : List (Ring τ)) (s : Shift τ) : Prop where
  /-- There is a queue for each worker, and at least one. -/
  sizes : s.pool.threads = max threads 1 ∧ s.pool.capacity = Ring.roundCapacity capacity
  /-- A ring counts the tasks of its queue, and accepts a task exactly if that has room. -/
  rings {i : Nat} : i < max threads 1 → ∃ r q, rs[i]? = some r ∧ s.pool.queues[i]? = some q ∧
    r.length = q.length ∧ ∀ t, (r.push t).1 =
      some (if q.length < Ring.roundCapacity capacity then .ok () else .error t)
  /-- The rings count what no worker has taken yet. -/
  counts : (rs.map Ring.length).sum = s.pool.pending
  /-- A submission is given the queue whose turn it is, and is counted. -/
  turn (t : τ) : s.submitted.length < 2 ^ 64 →
    (s.claim t).claims = s.claims ++ [(t, s.submitted.length % max threads 1)] ∧
      (s.claim t).submitted.length = s.submitted.length + 1
  /-- It is accepted exactly if that queue has room when it comes there, and is counted once. -/
  put {k i : Nat} {t : τ} {q : List τ} : s.claims[k]? = some (t, i) →
    s.pool.queues[i]? = some q → (s.put k).submitted.length = s.submitted.length ∧
    s.put k = if q.length < Ring.roundCapacity capacity then
        { s with
          pool := { s.pool with queues := s.pool.queues.set i (q ++ [t]) }
          claims := s.claims.eraseIdx k
          accepted := s.accepted ++ [(i, t)] }
      else { s with claims := s.claims.eraseIdx k, refused := s.refused ++ [t] }
  /-- A submission that nothing comes between does both. -/
  submit {q : List τ} (t : τ) : s.submitted.length < 2 ^ 64 →
    s.pool.queues[s.submitted.length % max threads 1]? = some q →
    s.pool.submit t = if q.length < Ring.roundCapacity capacity then
        (true, { s.pool with
          next := .ofNat (s.submitted.length + 1)
          queues := s.pool.queues.set (s.submitted.length % max threads 1) (q ++ [t]) })
      else (false, { s.pool with next := .ofNat (s.submitted.length + 1) })
  /-- Into empty queues that nobody takes from go as many tasks as there are places in all. The
  others are refused and change no queue. -/
  fills {ts : List τ} {bs : List Bool} {s' : Shift τ} : (∀ q ∈ s.pool.queues, q = []) →
    Submits s ts bs s' → s.submitted.length + ts.length ≤ 2 ^ 64 →
    bs = List.replicate (min ts.length (max threads 1 * Ring.roundCapacity capacity)) true ++
        List.replicate (ts.length - max threads 1 * Ring.roundCapacity capacity) false ∧
      s'.pool.running = true ∧
      s'.pool.pending = min ts.length (max threads 1 * Ring.roundCapacity capacity) ∧
      ∃ u, Submits s (ts.take (max threads 1 * Ring.roundCapacity capacity))
          (bs.take (max threads 1 * Ring.roundCapacity capacity)) u ∧
        Submits u (ts.drop (max threads 1 * Ring.roundCapacity capacity))
          (bs.drop (max threads 1 * Ring.roundCapacity capacity)) s' ∧
        s'.pool.queues = u.pool.queues

theorem Mirrors.takesTurns (h : Mirrors threads capacity rs s) :
    TakesTurns threads capacity rs s where
  sizes := ⟨h.threads_eq, h.capacity_eq⟩
  rings {i} hi := by
    obtain ⟨r, q, hr, hq⟩ := h.exists_queue hi
    obtain ⟨hcap, d, hkeeps⟩ := h.rings.keeps hr hq
    exact ⟨r, q, hr, hq, hkeeps.length_eq, fun t => hcap ▸ hkeeps.serves.push t⟩
  counts := h.rings.sum_length
  turn t hlt := by
    refine ⟨?_, (submitted_claim s t).length_eq⟩
    rw [h.claim_eq, h.next, UInt64.toNat_ofNat', Nat.mod_eq_of_lt hlt]
  put hc hq := ⟨(submitted_put s _).length_eq, h.put_eq hc hq⟩
  submit {q} t hlt hq := by
    rw [← h.threads_eq] at hq ⊢
    rw [← h.capacity_eq]
    exact submit_eq h.running h.next hlt hq t
  fills {ts bs s'} hempty hrun hb := by
    have hn : 0 < max threads 1 := Nat.lt_of_lt_of_le Nat.one_pos (Nat.le_max_right threads 1)
    obtain ⟨hanswers, hlast, u, hfirst, hothers, hqueues⟩ := hrun.filled (h.filled hempty) hn hb
    rw [Nat.sub_zero] at hanswers hfirst hothers
    refine ⟨hanswers, hlast.running, ?_, u, hfirst, hothers, hqueues⟩
    rw [hlast.pending, Nat.zero_add]

/-- The tasks that are submitted to a running pool go to its queues in turn, and are refused only
for want of room. -/
theorem takesTurns_of_reachable (h : Reachable threads capacity s) (hr : s.pool.running = true) :
    (∃ rs, OnRings threads capacity rs s) ∧
      (∀ rs, OnRings threads capacity rs s → TakesTurns threads capacity rs s) ∧
      (∀ ts, ∃ bs s', Submits s ts bs s') ∧
      ∀ ts bs s', Submits s ts bs s' → Reachable threads capacity s' :=
  ⟨exists_onRings h hr, fun _ hrs => (mirrors_of_onRings hrs).takesTurns, exists_submits s,
    fun _ _ _ hrun => hrun.reachable h⟩

/-- Two workers, of which the first has taken the only task. The turn is at the second queue. -/
def oneTakenShift : Shift Nat :=
  (((({ pool := Pool.create 2 2 } : Shift Nat).claim 0).put 0).work 0).work 0

theorem takesTurns_oneTakenShift : Reachable 2 2 oneTakenShift ∧
    oneTakenShift.pool.running = true ∧ oneTakenShift.executing = [0] ∧
    ∃ rs, OnRings 2 2 rs oneTakenShift ∧ TakesTurns 2 2 rs oneTakenShift ∧
      ∀ bs s', Submits oneTakenShift [1, 2, 3, 4, 5, 6] bs s' →
        bs = [true, true, true, true, false, false] ∧ s'.pool.pending = 4 := by
  have hreach : Reachable 2 2 oneTakenShift :=
    .step (.step (.step (.step .start (.claim _ 0)) (.put _ 0)) (.work _ 0)) (.work _ 0)
  obtain ⟨⟨rs, hrs⟩, hall, -, -⟩ := takesTurns_of_reachable hreach rfl
  refine ⟨hreach, rfl, rfl, rs, hrs, hall rs hrs, fun bs s' hrun => ?_⟩
  obtain ⟨hanswers, -, hpending, -⟩ := (hall rs hrs).fills (by decide) hrun (by decide)
  exact ⟨hanswers, hpending⟩

end Shift

end HttpServer.Pool
