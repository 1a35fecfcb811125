import HttpServer.Word

/-!
# Ring queues

A queue of bounded size that many threads put into and take from without a lock. Its slots
stand in a ring. Two cursors count the puts and the takes, and every slot carries a sequence
number that tells whose turn it is : the number `pos` means that the put at position `pos` may
fill the slot, and `pos + 1` that the take at position `pos` may empty it. All counts have
64 bits and wrap around.

A call goes through a few phases, and each phase does one thing that no other thread can see
half done. `pushStep` and `popStep` are these things. `push` and `pop` are calls that no
other call comes between.
-/

namespace HttpServer

/-- A place for one value. -/
structure Slot (α : Type) where
  /-- Whose turn it is. -/
  sequence : UInt64
  /-- The value, while there is one. -/
  value? : Option α := none
deriving DecidableEq, Repr, Inhabited

/-- A ring of slots. -/
structure Ring (α : Type) where
  /-- The slots; their number is a power of two. -/
  slots : Array (Slot α)
  /-- How often a put has claimed a position. -/
  enqueued : UInt64 := 0
  /-- How often a take has claimed a position. -/
  dequeued : UInt64 := 0
deriving DecidableEq, Repr, Inhabited

namespace Ring

variable {α : Type}

/-- The number of slots for a requested number. One slot alone would not do : for its number
`pos + 1` it could not tell a take from the put of the next lap. -/
def roundCapacity (n : Nat) : Nat := max (powerOfTwo n) 2

/-- An empty ring. -/
def withCapacity (n : Nat) : Ring α :=
  { slots := ((List.range (roundCapacity n)).map fun i => { sequence := UInt64.ofNat i }).toArray }

/-- The number of slots. -/
def capacity (r : Ring α) : Nat := r.slots.size

/-- The slot for a position. -/
def index (r : Ring α) (pos : UInt64) : Nat := (pos &&& UInt64.ofNat (r.capacity - 1)).toNat

/-- The sequence number of the slot for a position. -/
def sequence (r : Ring α) (pos : UInt64) : UInt64 := (r.slots[r.index pos]?.map (·.sequence)).getD 0

/-- The value in the slot for a position. -/
def value? (r : Ring α) (pos : UInt64) : Option α := r.slots[r.index pos]?.bind (·.value?)

/-- Another sequence number in the slot for a position. -/
def setSequence (r : Ring α) (pos n : UInt64) : Ring α :=
  let i := r.index pos
  { r with slots := r.slots.modify i fun s => { s with sequence := n } }

/-- Another value in the slot for a position. -/
def setValue (r : Ring α) (pos : UInt64) (v? : Option α) : Ring α :=
  let i := r.index pos
  { r with slots := r.slots.modify i fun s => { s with value? := v? } }

@[simp] theorem capacity_setSequence (r : Ring α) (pos n : UInt64) :
    (r.setSequence pos n).capacity = r.capacity := by
  simp [setSequence, capacity]

@[simp] theorem capacity_setValue (r : Ring α) (pos : UInt64) (v? : Option α) :
    (r.setValue pos v?).capacity = r.capacity := by
  simp [setValue, capacity]

theorem getElem?_setSequence (r : Ring α) (pos n : UInt64) (j : Nat) :
    (r.setSequence pos n).slots[j]? =
      if r.index pos = j then r.slots[j]?.map fun s => { s with sequence := n }
      else r.slots[j]? :=
  Array.getElem?_modify

theorem getElem?_setValue (r : Ring α) (pos : UInt64) (v? : Option α) (j : Nat) :
    (r.setValue pos v?).slots[j]? =
      if r.index pos = j then r.slots[j]?.map fun s => { s with value? := v? }
      else r.slots[j]? :=
  Array.getElem?_modify

variable {r : Ring α} {pos : UInt64} {s : Slot α} {j : Nat}

theorem slots_setSequence (hj : r.index pos = j) (hs : r.slots[j]? = some s) (n : UInt64) :
    (r.setSequence pos n).slots[j]? = some { s with sequence := n } := by
  rw [getElem?_setSequence, if_pos hj, hs]
  rfl

theorem slots_setSequence_of_ne (hj : j ≠ r.index pos) (n : UInt64) :
    (r.setSequence pos n).slots[j]? = r.slots[j]? := by
  rw [getElem?_setSequence, if_neg hj.symm]

theorem slots_setValue (hj : r.index pos = j) (hs : r.slots[j]? = some s) (v? : Option α) :
    (r.setValue pos v?).slots[j]? = some { s with value? := v? } := by
  rw [getElem?_setValue, if_pos hj, hs]
  rfl

theorem slots_setValue_of_ne (hj : j ≠ r.index pos) (v? : Option α) :
    (r.setValue pos v?).slots[j]? = r.slots[j]? := by
  rw [getElem?_setValue, if_neg hj.symm]

theorem sequence_of_getElem? (h : r.slots[r.index pos]? = some s) :
    r.sequence pos = s.sequence := by
  simp [sequence, h]

theorem value?_of_getElem? (h : r.slots[r.index pos]? = some s) : r.value? pos = s.value? := by
  simp [value?, h]

@[simp] theorem index_setSequence (r : Ring α) (pos n pos' : UInt64) :
    (r.setSequence pos n).index pos' = r.index pos' := by
  rw [index, capacity_setSequence, index]

@[simp] theorem index_setValue (r : Ring α) (pos : UInt64) (v? : Option α) (pos' : UInt64) :
    (r.setValue pos v?).index pos' = r.index pos' := by
  rw [index, capacity_setValue, index]

theorem sequence_setSequence_of_ne {pos' : UInt64} (h : r.index pos' ≠ r.index pos) (n : UInt64) :
    (r.setSequence pos n).sequence pos' = r.sequence pos' := by
  rw [sequence, index_setSequence, getElem?_setSequence, if_neg h.symm, sequence]

@[simp] theorem sequence_setValue (r : Ring α) (pos : UInt64) (v? : Option α) (pos' : UInt64) :
    (r.setValue pos v?).sequence pos' = r.sequence pos' := by
  rw [sequence, index_setValue, getElem?_setValue, sequence]
  split
  · rw [Option.map_map]
    rfl
  · rfl

@[simp] theorem capacity_withCapacity (n : Nat) :
    (withCapacity n : Ring α).capacity = roundCapacity n := by
  simp [withCapacity, capacity]

theorem getElem?_withCapacity {n : Nat} (h : j < roundCapacity n) :
    (withCapacity n : Ring α).slots[j]? = some { sequence := UInt64.ofNat j } := by
  simp [withCapacity, h]

/-- The number of values, as far as the cursors tell. -/
def length (r : Ring α) : Nat := min (r.enqueued - r.dequeued).toNat r.capacity

/-- The number of slots that hold a value. -/
def held (r : Ring α) : Nat := r.slots.countP (·.value?.isSome)

/-! ## Phases of a call -/

/-- How far a put has come. -/
inductive PushPhase where
  /-- It is to read the cursor. -/
  | start
  /-- It is to look at the slot of a position. -/
  | position (pos : UInt64)
  /-- It is to claim the position. -/
  | ready (pos : UInt64)
  /-- It is to store the value. -/
  | claimed (pos : UInt64)
  /-- It is to hand the slot on. -/
  | stored (pos : UInt64)
  /-- It has ended; the value was taken, or the ring was full. -/
  | ended (accepted : Bool)
deriving DecidableEq, Repr

/-- How far a take has come. -/
inductive PopPhase (α : Type) where
  /-- It is to read the cursor. -/
  | start
  /-- It is to look at the slot of a position. -/
  | position (pos : UInt64)
  /-- It is to claim the position. -/
  | ready (pos : UInt64)
  /-- It is to fetch the value. -/
  | claimed (pos : UInt64)
  /-- It is to hand the slot on. -/
  | fetched (pos : UInt64) (v? : Option α)
  /-- It has ended with what the slot held. -/
  | ended (v? : Option α)
  /-- It has ended because the ring was empty. -/
  | empty
deriving DecidableEq, Repr

/-- The sequence number is ahead of the given count, level with it, or behind it; counts
that have wrapped around are compared by their distance. -/
def turn (sequence count : UInt64) : Ordering :=
  let d := (sequence - count).toInt64
  if d = 0 then .eq else if d < 0 then .lt else .gt

theorem eq_of_turn {sequence count : UInt64} (h : turn sequence count = .eq) :
    sequence = count := by
  simp only [turn] at h
  split at h
  · rename_i h0
    have hsub : sequence - count = 0 := congrArg Int64.toUInt64 h0
    rw [UInt64.sub_eq_iff_eq_add.1 hsub, UInt64.zero_add]
  · split at h <;> contradiction

/-- The next thing that a put does. A claim can fail without a reason, as `unlucky` says. -/
def pushStep (v : α) (unlucky : Bool) (r : Ring α) : PushPhase → PushPhase × Ring α
  | .start => (.position r.enqueued, r)
  | .position pos =>
    match turn (r.sequence pos) pos with
    | .eq => (.ready pos, r)
    | .lt => (.ended false, r)
    | .gt => (.start, r)
  | .ready pos =>
    if r.enqueued = pos ∧ unlucky = false then (.claimed pos, { r with enqueued := pos + 1 })
    else (.position r.enqueued, r)
  | .claimed pos => (.stored pos, r.setValue pos (some v))
  | .stored pos => (.ended true, r.setSequence pos (pos + 1))
  | .ended accepted => (.ended accepted, r)

/-- The next thing that a take does. A claim can fail without a reason, as `unlucky` says. -/
def popStep (unlucky : Bool) (r : Ring α) : PopPhase α → PopPhase α × Ring α
  | .start => (.position r.dequeued, r)
  | .position pos =>
    match turn (r.sequence pos) (pos + 1) with
    | .eq => (.ready pos, r)
    | .lt => (.empty, r)
    | .gt => (.start, r)
  | .ready pos =>
    if r.dequeued = pos ∧ unlucky = false then (.claimed pos, { r with dequeued := pos + 1 })
    else (.position r.dequeued, r)
  | .claimed pos => (.fetched pos (r.value? pos), r.setValue pos none)
  | .fetched pos v? => (.ended v?, r.setSequence pos (pos + UInt64.ofNat r.capacity))
  | .ended v? => (.ended v?, r)
  | .empty => (.empty, r)

/-! ## Calls without company -/

/-- The first `n` things that a put does when nothing comes between them. -/
def pushAlone (v : α) : Nat → PushPhase → Ring α → PushPhase × Ring α
  | 0, phase, r => (phase, r)
  | n + 1, phase, r =>
    let (phase, r) := pushStep v false r phase
    pushAlone v n phase r

/-- The first `n` things that a take does when nothing comes between them. -/
def popAlone : Nat → PopPhase α → Ring α → PopPhase α × Ring α
  | 0, phase, r => (phase, r)
  | n + 1, phase, r =>
    let (phase, r) := popStep false r phase
    popAlone n phase r

/-- Puts a value in, or hands it back if there is no room. There is no answer if the put has to
wait for another call to end. -/
def push (r : Ring α) (v : α) : Option (Except α Unit) × Ring α :=
  match pushAlone v 5 .start r with
  | (.ended true, r') => (some (.ok ()), r')
  | (.ended false, r') => (some (.error v), r')
  | (_, r') => (none, r')

/-- Takes the oldest value out, if there is one. There is no answer if the take has to wait
for another call to end. -/
def pop (r : Ring α) : Option (Option α) × Ring α :=
  match popAlone 5 .start r with
  | (.ended v?, r') => (some v?, r')
  | (.empty, r') => (some none, r')
  | (_, r') => (none, r')

/-- Puts values in, one after the other, as long as there is room. The answer holds their
number. -/
def pushMany (r : Ring α) : List α → Nat × Ring α
  | [] => (0, r)
  | v :: l =>
    match r.push v with
    | (some (.ok ()), r') =>
      let (n, r'') := r'.pushMany l
      (n + 1, r'')
    | (_, r') => (0, r')

/-- Takes values out until there is none, but at most `n`. -/
def popMany (r : Ring α) : Nat → List α × Ring α
  | 0 => ([], r)
  | n + 1 =>
    match r.pop with
    | (some (some v), r') =>
      let (l, r'') := r'.popMany n
      (v :: l, r'')
    | (_, r') => ([], r')

/-- Takes all values out, the oldest first. -/
def drain (r : Ring α) : List α × Ring α := r.popMany r.capacity

end Ring

end HttpServer
