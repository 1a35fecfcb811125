import HttpServer.Stream.Source

/-!
# Buffered reading

A `Reader` holds the bytes that were read from its source and not yet handed out. They stand
in a buffer of `size` bytes from position `head` on. Before a read from the source the buffer
makes room : an empty one starts over at its front, a full one moves its bytes to the front,
and only a buffer that is full from the front doubles.

A read of a byte or of a line that fails hands out nothing and keeps everything, so it can
be tried again when more has arrived.
-/

namespace HttpServer

/-- A source with a buffer in front of it. -/
structure Reader (σ : Type) where
  /-- Where the bytes come from. -/
  source : σ
  /-- The bytes read and not yet handed out. -/
  window : Bytes := []
  /-- The position of the window in the buffer. -/
  head : Nat := 0
  /-- The size of the buffer. -/
  size : Nat := 4096

namespace Reader

variable {σ : Type}

/-- A reader with a buffer of the given size, though never a tiny one. -/
def withCapacity (capacity : Nat) (s : σ) : Reader σ := { source := s, size := max capacity 16 }

/-- A reader with a buffer of the usual size. -/
def ofSource (s : σ) : Reader σ := withCapacity 4096 s

/-- The number of bytes read and not yet handed out. -/
def buffered (r : Reader σ) : Nat := r.window.length

/-- The position just past the window. -/
def tail (r : Reader σ) : Nat := r.head + r.window.length

/-- The free space behind the window. -/
def room (r : Reader σ) : Nat := r.size - r.tail

/-- The reader with room behind its window. -/
def makeRoom (r : Reader σ) : Reader σ :=
  if r.window = [] then { r with head := 0 }
  else if r.tail = r.size then
    if 0 < r.head then { r with head := 0 } else { r with size := r.size * 2 }
  else r

@[simp] theorem window_makeRoom (r : Reader σ) : r.makeRoom.window = r.window := by
  unfold makeRoom; repeat' split
  all_goals rfl

@[simp] theorem source_makeRoom (r : Reader σ) : r.makeRoom.source = r.source := by
  unfold makeRoom; repeat' split
  all_goals rfl

variable [Source σ]

/-- Reads from the source into the free space; the answer is what came. -/
def fill (r : Reader σ) : Except IoError Bytes × Reader σ :=
  match Source.fetch r.makeRoom.source r.makeRoom.room with
  | (.ok l, s) => (.ok l, { r.makeRoom with source := s, window := r.makeRoom.window ++ l })
  | (.error e, s) => (.error e, { r.makeRoom with source := s })

theorem window_fill_ok {r r' : Reader σ} {l : Bytes} (h : r.fill = (.ok l, r')) :
    r'.window = r.window ++ l := by
  unfold fill at h
  split at h <;> cases h
  simp

/-- A bound on the bytes that the reader can still hand out. -/
def remaining (r : Reader σ) : Nat := r.window.length + Source.remaining r.source

theorem remaining_fill {r r' : Reader σ} {x : Except IoError Bytes} (h : r.fill = (x, r')) :
    r'.remaining ≤ r.remaining := by
  unfold fill at h
  split at h <;> rename_i hf <;> cases h
  · have := Source.fetch_remaining_ok hf
    simp [remaining] at *; omega
  · have := Source.fetch_remaining_error hf
    simp [remaining] at *; omega

/-! ## Bytes -/

/-- What a read of one byte can give. -/
inductive ByteRead where
  | byte (b : UInt8)
  /-- The source has ended. -/
  | eof
  /-- The source has nothing at the moment. -/
  | wouldBlock
  | error (kind : IoKind)
deriving DecidableEq, Repr

/-- Hands out the next byte. -/
def readByte (r : Reader σ) : ByteRead × Reader σ :=
  match r.window with
  | b :: l => (.byte b, { r with window := l, head := r.head + 1 })
  | [] =>
    match r.fill with
    | (.ok (b :: l), r') => (.byte b, { r' with window := l, head := r'.head + 1 })
    | (.ok [], r') => (.eof, r')
    | (.error e, r') => (if e.kind = .wouldBlock then .wouldBlock else .error e.kind, r')

theorem remaining_readByte_byte {r r' : Reader σ} {b : UInt8}
    (h : r.readByte = (.byte b, r')) : r'.remaining < r.remaining := by
  unfold readByte at h
  split at h
  · rename_i hw
    cases h
    simp [remaining, hw]
  · rename_i hw
    split at h
    · rename_i b' l r'' hf
      have h1 := remaining_fill hf
      have h2 := window_fill_ok hf
      cases h
      simp [remaining, hw, h2] at *; omega
    · cases h
    · split at h <;> cases h

/-! ## Lines -/

/-- Reads on until the window holds a line end, of which the first `scanned` bytes hold
none. -/
def scanLine (r : Reader σ) (max scanned : Nat) : Except IoError (Option Bytes) × Reader σ :=
  match splitAtByte? lf (r.window.drop scanned) with
  | some (pre, post) =>
    let line := r.window.take scanned ++ pre ++ [lf]
    if max < line.length then (.error { kind := .invalidData }, r)
    else (.ok (some line), { r with window := post, head := r.head + line.length })
  | none =>
    if max < r.window.length then (.error { kind := .invalidData }, r)
    else
      match _h : r.fill with
      | (.error e, r') => (.error e, r')
      | (.ok [], r') =>
        if r'.window = [] then (.ok none, r') else (.error { kind := .unexpectedEof }, r')
      | (.ok (_ :: _), r') => scanLine r' max r.window.length
termination_by max + 1 - r.window.length
decreasing_by
  have := window_fill_ok _h
  simp [this]; omega

theorem scanLine_eq (r : Reader σ) (max scanned : Nat) :
    r.scanLine max scanned =
      match splitAtByte? lf (r.window.drop scanned) with
      | some (pre, post) =>
        let line := r.window.take scanned ++ pre ++ [lf]
        if max < line.length then (.error { kind := .invalidData }, r)
        else (.ok (some line), { r with window := post, head := r.head + line.length })
      | none =>
        if max < r.window.length then (.error { kind := .invalidData }, r)
        else
          match r.fill with
          | (.error e, r') => (.error e, r')
          | (.ok [], r') =>
            if r'.window = [] then (.ok none, r') else (.error { kind := .unexpectedEof }, r')
          | (.ok (_ :: _), r') => scanLine r' max r.window.length := by
  rw [scanLine]
  split
  · rfl
  · split
    · rfl
    · split <;> simp only [*]

/-- Hands out the next line with its line end, `none` if the source has ended before it.
A line of more than `max` bytes is refused as invalid data, and a line that is cut off by
the end of the source as an unexpected end. -/
def readLine (r : Reader σ) (max : Nat) : Except IoError (Option Bytes) × Reader σ :=
  r.scanLine max 0

theorem remaining_scanLine {r r' : Reader σ} {max scanned : Nat} {line : Bytes}
    (h : r.scanLine max scanned = (.ok (some line), r')) :
    r'.remaining + line.length ≤ r.remaining ∧ 0 < line.length := by
  fun_induction scanLine r max scanned generalizing r' line with
  | case1 => simp at h
  | case2 r scanned pre post hs line' =>
    have h1 := (splitAtByte?_eq_some hs).1
    have h2 := congrArg List.length (List.take_append_drop scanned r.window)
    rw [h1] at h2
    obtain ⟨h3, rfl⟩ := Prod.mk.inj h
    obtain rfl := Option.some.inj (Except.ok.inj h3)
    simp only [line', List.length_append, List.length_cons, List.length_nil, remaining] at h2 ⊢
    omega
  | case3 => simp at h
  | case4 => simp at h
  | case5 => simp at h
  | case6 => simp at h
  | case7 r scanned hs hm b l r'' hf ih =>
    have h1 := ih h
    have h2 := remaining_fill hf
    exact ⟨by omega, h1.2⟩

theorem length_le_of_scanLine {r r' : Reader σ} {max scanned : Nat} {line : Bytes}
    (h : r.scanLine max scanned = (.ok (some line), r')) : line.length ≤ max := by
  fun_induction scanLine r max scanned with
  | case1 => simp at h
  | case2 r scanned pre post hs line' hle =>
    obtain rfl := Option.some.inj (Except.ok.inj (Prod.mk.inj h).1)
    exact Nat.le_of_not_lt hle
  | case3 => simp at h
  | case4 => simp at h
  | case5 => simp at h
  | case6 => simp at h
  | case7 r scanned hs hm b l r'' hf ih => exact ih h

/-! ## Bodies -/

/-- Hands out exactly `n` bytes, the buffered ones first and the others straight from the
source. If the source fails, the buffered ones are handed out alone. -/
def readExact (r : Reader σ) (n : Nat) : Except (IoError × Bytes) Bytes × Reader σ :=
  let front := r.window.take n
  let r' := { r with window := r.window.drop n, head := r.head + front.length }
  if n ≤ front.length then (.ok front, r')
  else
    match Source.readExact r'.source (n - front.length) with
    | (.ok l, s) => (.ok (front ++ l), { r' with source := s })
    | (.error e, s) => (.error (e, front), { r' with source := s })

/-- A stretch that is all there does not need the source. -/
theorem readExact_of_buffered {r : Reader σ} {n : Nat} (h : n ≤ r.window.length) :
    r.readExact n =
      (.ok (r.window.take n), { r with window := r.window.drop n, head := r.head + n }) := by
  have hlen : (r.window.take n).length = n := List.length_take_of_le h
  rw [readExact]
  dsimp only
  rw [if_pos (Nat.le_of_eq hlen.symm), hlen]

/-- A stretch that is not all there takes the rest straight from the source. -/
theorem readExact_of_short {r : Reader σ} {n : Nat} (h : r.window.length < n) :
    r.readExact n =
      match Source.readExact r.source (n - r.window.length) with
      | (.ok l, s) => (.ok (r.window ++ l),
          { r with source := s, window := [], head := r.head + r.window.length })
      | (.error e, s) => (.error (e, r.window),
          { r with source := s, window := [], head := r.head + r.window.length }) := by
  have htake : r.window.take n = r.window := List.take_of_length_le (Nat.le_of_lt h)
  have hdrop : r.window.drop n = [] := List.drop_eq_nil_of_le (Nat.le_of_lt h)
  rw [readExact]
  dsimp only
  rw [htake, hdrop, if_neg (Nat.not_le.2 h)]

theorem length_of_readExact {r r' : Reader σ} {n : Nat} {l : Bytes}
    (h : r.readExact n = (.ok l, r')) : l.length = n := by
  unfold readExact at h
  dsimp only at h
  have hle := List.length_take_le n r.window
  split at h
  · obtain ⟨h1, -⟩ := Prod.mk.inj h
    cases h1
    omega
  · split at h
    · rename_i hr
      obtain ⟨h1, -⟩ := Prod.mk.inj h
      cases h1
      have hlen := Source.length_of_readExact hr
      rw [List.length_append]
      omega
    · cases h

/-- Drops what was not handed out and gives back the source. -/
def intoSource (r : Reader σ) : σ := r.source

end Reader

end HttpServer
