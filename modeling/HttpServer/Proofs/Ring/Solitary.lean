import HttpServer.Proofs.Ring.Slots
import Mathlib.Data.Nat.ModEq

/-!
# Rings with one caller

Calls that are made one after the other find a ring that is a queue of bounded size : a put is
accepted if there is room and handed back if there is none, and a take gives the oldest value
(`Ring.serves_after`). This holds for any number of calls, also when the cursors and the sequence
numbers have wrapped around.

The reason is that positions can be counted without end. The cursors and the sequence numbers are
the remainders of such positions, and as the number of slots divides the number of words, a
position and its remainder fall to the same slot (`Ring.index_ofNat`). Two positions that a caller
compares are never more than one capacity apart, and that is at most half of the words, so that
the sign of their distance tells which one is ahead (`Ring.turn_of_lt`). A ring with one slot
would not do : its sequence number would be level with the next put while the slot is full.
-/

namespace HttpServer.Ring

variable {α : Type} {r : Ring α} {q : List α} {v : α} {d i k : Nat}

/-! ## Positions without end -/

/-- A count that is ahead of the other one by at most half of the words. -/
theorem turn_of_lt {a b : Nat} (h : a < b) (hb : b ≤ a + 2 ^ 63) :
    turn (.ofNat a) (.ofNat b) = .lt := by
  have hnat : (UInt64.ofNat a - .ofNat b).toNat = 2 ^ 64 - (b - a) := by
    rw [UInt64.toNat_sub, UInt64.toNat_ofNat', UInt64.toNat_ofNat']
    omega
  have hint : (UInt64.ofNat a - .ofNat b).toInt64.toInt = (a : Int) - b := by
    change BitVec.toInt (UInt64.ofNat a - .ofNat b).toBitVec = _
    rw [BitVec.toInt_eq_toNat_cond, UInt64.toNat_toBitVec, hnat, if_neg (by omega)]
    omega
  unfold turn
  dsimp only
  rw [if_neg, if_pos]
  · rw [Int64.lt_iff_toInt_lt, hint]
    change (a : Int) - b < 0
    omega
  · intro h0
    rw [h0] at hint
    change (0 : Int) = _ at hint
    omega

theorem turn_self (n : UInt64) : turn n n = .eq := by
  simp [turn]

/-- Positions that are less than one lap apart fall to different slots. -/
theorem add_mod_ne {n : Nat} (hi : i < n) (hk : k < n) (hne : i ≠ k) :
    (d + i) % n ≠ (d + k) % n := by
  intro h
  have hmod : i % n = k % n := Nat.ModEq.add_left_cancel' d h
  rw [Nat.mod_eq_of_lt hi, Nat.mod_eq_of_lt hk] at hmod
  exact hne hmod

/-! ## What a ring holds -/

/-- The ring holds the values, of which the oldest was put at position `d`. -/
structure Keeps (r : Ring α) (d : Nat) (q : List α) : Prop where
  sized : r.IsSized
  length_le : q.length ≤ r.capacity
  dequeued : r.dequeued = .ofNat d
  enqueued : r.enqueued = .ofNat (d + q.length)
  /-- A slot with a value waits for the take. -/
  full {i : Nat} {v : α} : q[i]? = some v →
    r.slots[(d + i) % r.capacity]? = some ⟨.ofNat (d + i + 1), some v⟩
  /-- A slot without a value waits for the put. -/
  free {i : Nat} : q.length ≤ i → i < r.capacity →
    r.slots[(d + i) % r.capacity]? = some ⟨.ofNat (d + i), none⟩

theorem keeps_withCapacity (n : Nat) : Keeps (withCapacity n : Ring α) 0 [] where
  sized := isSized_withCapacity n
  length_le := Nat.zero_le _
  dequeued := rfl
  enqueued := rfl
  full h := by cases h
  free {i} _ hi := by
    rw [Nat.zero_add, Nat.mod_eq_of_lt hi]
    rw [capacity_withCapacity] at hi
    exact getElem?_withCapacity hi

namespace Keeps

/-- The number of values. -/
theorem length_eq (h : Keeps r d q) : r.length = q.length := by
  have hle := h.length_le
  have hcap := h.sized.le
  have hdiff : (UInt64.ofNat (d + q.length) - .ofNat d).toNat = q.length := by
    rw [UInt64.toNat_sub, UInt64.toNat_ofNat', UInt64.toNat_ofNat']
    omega
  rw [length, h.enqueued, h.dequeued, hdiff, Nat.min_eq_left hle]

/-- The sequence number for the next put tells whether there is room. -/
theorem turn_put (h : Keeps r d q) :
    turn (r.sequence (.ofNat (d + q.length))) (.ofNat (d + q.length)) =
      if q.length < r.capacity then .eq else .lt := by
  have hindex := index_ofNat h.sized (d + q.length)
  have htwo := h.sized.two_le
  split
  · rename_i hlt
    rw [sequence_of_getElem? (hindex ▸ h.free (Nat.le_refl _) hlt), turn_self]
  · -- one lap ago the slot was filled with the oldest value
    rename_i hge
    have hlen : q.length = r.capacity := Nat.le_antisymm h.length_le (Nat.le_of_not_lt hge)
    obtain ⟨v, hv⟩ : ∃ v, q[0]? = some v := ⟨_, List.getElem?_eq_getElem (by omega)⟩
    have hlap : (d + q.length) % r.capacity = d % r.capacity := by
      rw [hlen, Nat.add_mod_right]
    have hslot := h.full hv
    rw [Nat.add_zero, ← hlap, ← hindex] at hslot
    have hcap := h.sized.le
    rw [sequence_of_getElem? hslot]
    exact turn_of_lt (by omega) (by omega)

/-- The sequence number for the next take tells whether there is a value. -/
theorem turn_take (h : Keeps r d q) :
    turn (r.sequence (.ofNat d)) (.ofNat d + 1) = if q = [] then .lt else .eq := by
  have hindex := index_ofNat h.sized d
  have hsucc : UInt64.ofNat d + 1 = .ofNat (d + 1) := (UInt64.ofNat_add d 1).symm
  cases q with
  | nil =>
    have hslot := h.free (Nat.le_refl 0) (Nat.lt_of_lt_of_le Nat.two_pos h.sized.two_le)
    rw [Nat.add_zero, ← hindex] at hslot
    rw [if_pos rfl, sequence_of_getElem? hslot, hsucc]
    exact turn_of_lt (by omega) (by omega)
  | cons v q =>
    have hslot := h.full (i := 0) rfl
    rw [Nat.add_zero, ← hindex] at hslot
    rw [if_neg (List.cons_ne_nil v q), sequence_of_getElem? hslot, hsucc]
    exact turn_self _

end Keeps

/-! ## What a call leaves behind -/

/-- The ring with another value and another sequence number in the slot for a position. -/
def refill (r : Ring α) (pos : UInt64) (v? : Option α) (n : UInt64) : Ring α :=
  (r.setValue pos v?).setSequence pos n

@[simp] theorem capacity_refill (r : Ring α) (pos : UInt64) (v? : Option α) (n : UInt64) :
    (r.refill pos v? n).capacity = r.capacity := by
  rw [refill, capacity_setSequence, capacity_setValue]

theorem slots_refill {s : Slot α} {pos : UInt64} {j : Nat} (hj : j = r.index pos)
    (hs : r.slots[j]? = some s) (v? : Option α) (n : UInt64) :
    (r.refill pos v? n).slots[j]? = some ⟨n, v?⟩ :=
  slots_setSequence ((index_setValue r pos v? pos).trans hj.symm)
    (slots_setValue hj.symm hs v?) n

theorem slots_refill_of_ne {pos : UInt64} {j : Nat} (hj : j ≠ r.index pos) (v? : Option α)
    (n : UInt64) : (r.refill pos v? n).slots[j]? = r.slots[j]? := by
  rw [refill, slots_setSequence_of_ne (by rwa [index_setValue]), slots_setValue_of_ne hj]

/-- The ring when a put has found room for its value. -/
def accept (r : Ring α) (v : α) : Ring α :=
  ({ r with enqueued := r.enqueued + 1 } : Ring α).refill r.enqueued (some v) (r.enqueued + 1)

/-- The ring when a take has found a value. -/
def give (r : Ring α) : Ring α :=
  ({ r with dequeued := r.dequeued + 1 } : Ring α).refill r.dequeued none
    (r.dequeued + .ofNat r.capacity)

@[simp] theorem capacity_accept (r : Ring α) (v : α) : (r.accept v).capacity = r.capacity := by
  rw [accept, capacity_refill]
  rfl

@[simp] theorem capacity_give (r : Ring α) : r.give.capacity = r.capacity := by
  rw [give, capacity_refill]
  rfl

namespace Keeps

theorem accept (h : Keeps r d q) (hlt : q.length < r.capacity) (v : α) :
    Keeps (r.accept v) d (q ++ [v]) := by
  have hnext : r.enqueued + 1 = .ofNat (d + q.length + 1) := by
    rw [h.enqueued, UInt64.ofNat_add (d + q.length) 1]
    rfl
  have hindex : (d + q.length) % r.capacity = r.index r.enqueued := by
    rw [h.enqueued, index_ofNat h.sized]
  have hother {i : Nat} (hi : i < r.capacity) (hne : i ≠ q.length) :
      (d + i) % r.capacity ≠ r.index r.enqueued := by
    rw [← hindex]
    exact add_mod_ne hi hlt hne
  have hlength : (q ++ [v]).length = q.length + 1 := List.length_append
  refine ⟨?_, ?_, h.dequeued, ?_, ?_, ?_⟩
  · rw [IsSized, capacity_accept]
    exact h.sized
  · rw [capacity_accept, hlength]
    exact hlt
  · rw [hlength]
    exact hnext
  · intro i w hi
    rw [capacity_accept]
    rcases Nat.lt_or_ge i q.length with hiq | hiq
    · rw [List.getElem?_append_left hiq] at hi
      have hne := hother (Nat.lt_trans hiq hlt) (Nat.ne_of_lt hiq)
      exact (slots_refill_of_ne hne _ _).trans (h.full hi)
    · rw [List.getElem?_append_right hiq, List.getElem?_singleton] at hi
      split at hi
      · rename_i hzero
        obtain rfl : i = q.length := Nat.le_antisymm (Nat.sub_eq_zero_iff_le.1 hzero) hiq
        rw [← hnext, ← hi]
        exact slots_refill hindex (h.free (Nat.le_refl _) hlt) _ _
      · contradiction
  · intro i hle hi
    rw [hlength] at hle
    rw [capacity_accept] at hi ⊢
    have hne := hother hi (Nat.ne_of_gt hle)
    exact (slots_refill_of_ne hne _ _).trans (h.free (Nat.le_of_succ_le hle) hi)

theorem give (h : Keeps r d (v :: q)) : Keeps r.give (d + 1) q := by
  have hnext : r.dequeued + .ofNat r.capacity = .ofNat (d + r.capacity) := by
    rw [h.dequeued, UInt64.ofNat_add]
  have hindex : d % r.capacity = r.index r.dequeued := by
    rw [h.dequeued, index_ofNat h.sized]
  have hpos : 0 < r.capacity := Nat.lt_of_lt_of_le Nat.two_pos h.sized.two_le
  have hlap : (d + r.capacity) % r.capacity = r.index r.dequeued := by
    rw [Nat.add_mod_right, hindex]
  have hother {i : Nat} (hi : i + 1 < r.capacity) :
      (d + (i + 1)) % r.capacity ≠ r.index r.dequeued := by
    rw [← hindex]
    exact add_mod_ne (d := d) hi hpos (Nat.succ_ne_zero i)
  have hlength : (v :: q).length = q.length + 1 := rfl
  have hle := h.length_le
  refine ⟨?_, ?_, ?_, ?_, ?_, ?_⟩
  · rw [IsSized, capacity_give]
    exact h.sized
  · rw [capacity_give]
    exact Nat.le_of_succ_le hle
  · rw [UInt64.ofNat_add d 1, ← h.dequeued]
    rfl
  · rw [Nat.add_assoc, Nat.add_comm 1]
    exact h.enqueued
  · intro i w hi
    rw [capacity_give, Nat.add_assoc, Nat.add_comm 1]
    have hiq : i < q.length := (List.getElem?_eq_some_iff.1 hi).1
    exact (slots_refill_of_ne (hother (Nat.lt_of_lt_of_le (Nat.succ_lt_succ hiq) hle)) _ _).trans
      (h.full hi)
  · intro i hiq hi
    rw [capacity_give] at hi ⊢
    rw [Nat.add_assoc, Nat.add_comm 1]
    rcases Nat.lt_or_ge (i + 1) r.capacity with hlt | hge
    · exact (slots_refill_of_ne (hother hlt) _ _).trans (h.free (Nat.succ_le_succ hiq) hlt)
    · -- the slot that was emptied is the last one to be filled again
      have hi' : i + 1 = r.capacity := Nat.le_antisymm hi hge
      have hslot := h.full (i := 0) rfl
      rw [Nat.add_zero, hindex, ← hlap] at hslot
      rw [hi', ← hnext]
      exact slots_refill hlap hslot _ _

end Keeps

/-! ## Calls without company -/

theorem pushAlone_ended (v : α) (n : Nat) (accepted : Bool) (r : Ring α) :
    pushAlone v n (.ended accepted) r = (.ended accepted, r) := by
  induction n with
  | zero => rfl
  | succ n ih => exact ih

theorem popAlone_ended (n : Nat) (v? : Option α) (r : Ring α) :
    popAlone n (.ended v?) r = (.ended v?, r) := by
  induction n with
  | zero => rfl
  | succ n ih => exact ih

theorem popAlone_empty (n : Nat) (r : Ring α) : popAlone n .empty r = (.empty, r) := by
  induction n with
  | zero => rfl
  | succ n ih => exact ih

/-- A put that has found its slot free does not have to look again. -/
theorem pushAlone_ready (v : α) (r : Ring α) (n : Nat) :
    pushAlone v (n + 3) (.ready r.enqueued) r = (.ended true, r.accept v) := by
  rw [pushAlone, pushStep, if_pos ⟨rfl, rfl⟩]
  exact pushAlone_ended v n true _

/-- A take that has found its slot full does not have to look again. -/
theorem popAlone_ready (r : Ring α) (n : Nat) :
    popAlone (n + 3) (.ready r.dequeued) r = (.ended (r.value? r.dequeued), r.give) := by
  rw [popAlone, popStep, if_pos ⟨rfl, rfl⟩]
  refine (popAlone_ended n _ _).trans ?_
  simp only [give, refill, capacity_setValue]
  rfl

namespace Keeps

theorem pushAlone_start_of_room (h : Keeps r d q) (hlt : q.length < r.capacity) (v : α)
    (n : Nat) : pushAlone v (n + 2) .start r = pushAlone v n (.ready r.enqueued) r := by
  have hturn := h.turn_put
  rw [if_pos hlt, ← h.enqueued] at hturn
  simp only [pushAlone, pushStep, hturn]

theorem pushAlone_start_of_full (h : Keeps r d q) (hge : ¬q.length < r.capacity) (v : α)
    (n : Nat) : pushAlone v (n + 2) .start r = (.ended false, r) := by
  have hturn := h.turn_put
  rw [if_neg hge, ← h.enqueued] at hturn
  simp only [pushAlone, pushStep, hturn]
  exact pushAlone_ended v n false r

theorem popAlone_start_of_cons (h : Keeps r d (v :: q)) (n : Nat) :
    popAlone (n + 2) .start r = popAlone n (.ready r.dequeued) r := by
  have hturn := h.turn_take
  rw [if_neg (List.cons_ne_nil v q), ← h.dequeued] at hturn
  simp only [popAlone, popStep, hturn]

theorem popAlone_start_of_nil (h : Keeps r d []) (n : Nat) :
    popAlone (n + 2) .start r = (.empty, r) := by
  have hturn := h.turn_take
  rw [if_pos rfl, ← h.dequeued] at hturn
  simp only [popAlone, popStep, hturn]
  exact popAlone_empty n r

theorem push_of_room (h : Keeps r d q) (hlt : q.length < r.capacity) (v : α) :
    r.push v = (some (.ok ()), r.accept v) := by
  rw [push, h.pushAlone_start_of_room hlt, pushAlone_ready]

theorem push_of_full (h : Keeps r d q) (hge : ¬q.length < r.capacity) (v : α) :
    r.push v = (some (.error v), r) := by
  rw [push, h.pushAlone_start_of_full hge]

theorem pop_of_cons (h : Keeps r d (v :: q)) : r.pop = (some (some v), r.give) := by
  have hslot := h.full (i := 0) rfl
  rw [Nat.add_zero, ← index_ofNat h.sized, ← h.dequeued] at hslot
  rw [pop, h.popAlone_start_of_cons, popAlone_ready, value?_of_getElem? hslot]

theorem pop_of_nil (h : Keeps r d []) : r.pop = (some none, r) := by
  rw [pop, h.popAlone_start_of_nil]

end Keeps

/-! ## Runs of calls -/

/-- A call. -/
inductive Op (α : Type) where
  /-- The put of a value. -/
  | push (v : α)
  /-- A take. -/
  | pop
deriving DecidableEq, Repr

/-- What a call makes of a ring. -/
def Op.onRing (r : Ring α) : Op α → Ring α
  | push v => (r.push v).2
  | pop => r.pop.2

/-- What a call makes of a queue with room for `c` values. -/
def Op.onQueue (c : Nat) (q : List α) : Op α → List α
  | push v => if q.length < c then q ++ [v] else q
  | pop => q.tail

/-- The ring after some calls. -/
def after (n : Nat) (ops : List (Op α)) : Ring α := ops.foldl Op.onRing (withCapacity n)

/-- The queue after the same calls. -/
def contents (c : Nat) (ops : List (Op α)) : List α := ops.foldl (Op.onQueue c) []

/-- The ring answers the next call as the queue does. -/
structure Serves (r : Ring α) (c : Nat) (q : List α) : Prop where
  capacity_eq : r.capacity = c
  length_eq : r.length = q.length
  length_le : q.length ≤ c
  /-- A put is accepted exactly if there is room, and otherwise hands its value back. -/
  push (v : α) : (r.push v).1 = some (if q.length < c then .ok () else .error v)
  /-- A put that is refused changes nothing. -/
  push_full (v : α) : q.length = c → (r.push v).2 = r
  /-- A put looks at one slot, and that once. -/
  push_once (v : α) {k : Nat} {pos : UInt64} :
    (pushAlone v k .start r).1 = .position pos → k = 1
  /-- A take gives the oldest value. -/
  pop : r.pop.1 = some q.head?
  /-- A take that finds no value changes nothing. -/
  pop_nil : q = [] → r.pop.2 = r
  /-- A take looks at one slot, and that once. -/
  pop_once {k : Nat} {pos : UInt64} : (popAlone k .start r).1 = .position pos → k = 1

theorem pushAlone_ready_ne (v : α) (r : Ring α) (k : Nat) (pos : UInt64) :
    (pushAlone v k (.ready r.enqueued) r).1 ≠ .position pos := by
  match k with
  | 0 => nofun
  | 1 => simp [pushAlone, pushStep]
  | 2 => simp [pushAlone, pushStep]
  | n + 3 => simp [pushAlone_ready]

theorem popAlone_ready_ne (r : Ring α) (k : Nat) (pos : UInt64) :
    (popAlone k (.ready r.dequeued) r).1 ≠ .position pos := by
  match k with
  | 0 => nofun
  | 1 => simp [popAlone, popStep]
  | 2 => simp [popAlone, popStep]
  | n + 3 => simp [popAlone_ready]

namespace Keeps

theorem push_once (h : Keeps r d q) {pos : UInt64}
    (hk : (pushAlone v k .start r).1 = .position pos) : k = 1 := by
  match k, hk with
  | 0, hk => cases hk
  | 1, _ => rfl
  | n + 2, hk =>
    by_cases hlt : q.length < r.capacity
    · rw [h.pushAlone_start_of_room hlt] at hk
      exact absurd hk (pushAlone_ready_ne v r n pos)
    · rw [h.pushAlone_start_of_full hlt] at hk
      cases hk

theorem pop_once (h : Keeps r d q) {pos : UInt64}
    (hk : (popAlone k .start r).1 = .position pos) : k = 1 := by
  match k, hk with
  | 0, hk => cases hk
  | 1, _ => rfl
  | n + 2, hk =>
    cases q with
    | nil =>
      rw [h.popAlone_start_of_nil] at hk
      cases hk
    | cons v q =>
      rw [h.popAlone_start_of_cons] at hk
      exact absurd hk (popAlone_ready_ne r n pos)

theorem serves (h : Keeps r d q) : Serves r r.capacity q where
  capacity_eq := rfl
  length_eq := h.length_eq
  length_le := h.length_le
  push v := by
    by_cases hlt : q.length < r.capacity
    · rw [h.push_of_room hlt, if_pos hlt]
    · rw [h.push_of_full hlt, if_neg hlt]
  push_full v hfull := by rw [h.push_of_full (Nat.not_lt.2 (Nat.le_of_eq hfull.symm))]
  push_once _ _ _ := h.push_once
  pop := by
    cases q with
    | nil => rw [h.pop_of_nil, List.head?_nil]
    | cons v q => rw [h.pop_of_cons, List.head?_cons]
  pop_nil hnil := by
    subst hnil
    rw [h.pop_of_nil]
  pop_once := h.pop_once

/-- One call. -/
theorem op (h : Keeps r d q) (op : Op α) :
    (op.onRing r).capacity = r.capacity ∧
      ∃ d', Keeps (op.onRing r) d' (op.onQueue r.capacity q) := by
  cases op with
  | push v =>
    rw [Op.onRing, Op.onQueue]
    split
    · rename_i hlt
      rw [h.push_of_room hlt]
      exact ⟨capacity_accept r v, d, h.accept hlt v⟩
    · rename_i hge
      rw [h.push_of_full hge]
      exact ⟨rfl, d, h⟩
  | pop =>
    rw [Op.onRing, Op.onQueue]
    cases q with
    | nil =>
      rw [h.pop_of_nil]
      exact ⟨rfl, d, h⟩
    | cons v q =>
      rw [h.pop_of_cons]
      exact ⟨capacity_give r, d + 1, h.give⟩

theorem foldl (h : Keeps r d q) (ops : List (Op α)) :
    (ops.foldl Op.onRing r).capacity = r.capacity ∧
      ∃ d', Keeps (ops.foldl Op.onRing r) d' (ops.foldl (Op.onQueue r.capacity) q) := by
  induction ops generalizing r d q with
  | nil => exact ⟨rfl, d, h⟩
  | cons op ops ih =>
    obtain ⟨hcap, d', hop⟩ := h.op op
    obtain ⟨hcap', hrun⟩ := ih hop
    rw [hcap] at hcap' hrun
    exact ⟨hcap', hrun⟩

end Keeps

/-- After any number of calls, one after the other, a ring is a queue of bounded size. -/
theorem serves_after (n : Nat) (ops : List (Op α)) :
    Serves (after n ops) (roundCapacity n) (contents (roundCapacity n) ops) := by
  obtain ⟨hcap, d, h⟩ := (keeps_withCapacity n).foldl ops
  rw [capacity_withCapacity] at hcap h
  have hserves := h.serves
  rwa [hcap] at hserves

end HttpServer.Ring
