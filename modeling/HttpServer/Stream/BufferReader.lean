import HttpServer.Stream.Reader

/-!
# Readers cell by cell

A `Reader` says which bytes it has yet to hand out and where they stand in its buffer. A
`BufferReader` has the buffer itself : cells, and two cursors between which these bytes stand.
Cells are read and written in stretches, and a stretch that is not inside the buffer has no
cells. So a call that would leave the buffer has no answer.
-/

namespace HttpServer

/-- A source with a buffer of cells in front of it. -/
structure BufferReader (σ : Type) where
  /-- Where the bytes come from. -/
  source : σ
  /-- The buffer. -/
  cells : Bytes
  /-- Where the bytes start that were read and not yet handed out. -/
  head : Nat := 0
  /-- Where they end. -/
  tail : Nat := 0

namespace BufferReader

variable {σ : Type}

/-- A reader with a buffer of the given size, though never a tiny one. -/
def withCapacity (capacity : Nat) (s : σ) : BufferReader σ :=
  { source := s, cells := List.replicate (max capacity 16) 0 }

/-- The number of bytes read and not yet handed out. -/
def buffered (b : BufferReader σ) : Nat := b.tail - b.head

/-- The bytes read and not yet handed out. -/
def window (b : BufferReader σ) : Bytes := (b.cells.take b.tail).drop b.head

/-- The reader with free cells behind its window : an empty window starts over at the front, one
at the end of the buffer moves to the front, and one that fills the buffer doubles it. -/
def makeRoom? (b : BufferReader σ) : Option (BufferReader σ) :=
  if b.head = b.tail then some { b with head := 0, tail := 0 }
  else if b.tail = b.cells.length then
    if 0 < b.head then
      (slice? b.cells b.head b.tail).bind fun moved =>
        (overwrite? b.cells 0 moved).map fun cells =>
          { b with cells, head := 0, tail := b.tail - b.head }
    else some { b with cells := b.cells ++ List.replicate b.cells.length 0 }
  else some b

theorem buffered_makeRoom? {b b' : BufferReader σ} (hb : b.head ≤ b.tail)
    (h : b.makeRoom? = some b') : b'.head ≤ b'.tail ∧ b'.buffered = b.buffered := by
  unfold makeRoom? at h
  split at h
  · cases h
    simp only [buffered]
    omega
  · split at h
    · split at h
      · obtain ⟨moved, -, h⟩ := Option.bind_eq_some_iff.1 h
        obtain ⟨cells, -, rfl⟩ := Option.map_eq_some_iff.1 h
        exact ⟨Nat.zero_le _, rfl⟩
      · cases h
        exact ⟨hb, rfl⟩
    · cases h
      exact ⟨hb, rfl⟩

variable [Source σ]

/-- Reads from the source into the free cells; the answer is the number of bytes that came. -/
def fill? (b : BufferReader σ) : Option (Except IoError Nat × BufferReader σ) :=
  b.makeRoom?.bind fun b =>
    (slice? b.cells b.tail b.cells.length).bind fun free =>
      match Source.fetch b.source free.length with
      | (.ok l, s) =>
        (overwrite? b.cells b.tail l).map fun cells =>
          (.ok l.length, { b with source := s, cells, tail := b.tail + l.length })
      | (.error e, s) => some (.error e, { b with source := s })

/-- What comes is added to the window. -/
theorem buffered_fill? {b b' : BufferReader σ} {n : Nat} (hb : b.head ≤ b.tail)
    (h : b.fill? = some (.ok n, b')) : b'.buffered = b.buffered + n := by
  obtain ⟨b₁, hroom, h⟩ := Option.bind_eq_some_iff.1 h
  obtain ⟨free, -, h⟩ := Option.bind_eq_some_iff.1 h
  obtain ⟨hle, hbuf⟩ := buffered_makeRoom? hb hroom
  split at h
  · obtain ⟨cells, -, hmap⟩ := Option.map_eq_some_iff.1 h
    cases hmap
    simp only [buffered] at hbuf ⊢
    omega
  · cases h

/-- Hands out the byte at the head. -/
def takeByte? (b : BufferReader σ) : Option (Reader.ByteRead × BufferReader σ) :=
  b.cells[b.head]?.map fun c => (.byte c, { b with head := b.head + 1 })

/-- Hands out the next byte. -/
def readByte? (b : BufferReader σ) : Option (Reader.ByteRead × BufferReader σ) :=
  if b.head = b.tail then
    match b.fill? with
    | none => none
    | some (.ok 0, b') => some (.eof, b')
    | some (.ok (_ + 1), b') => b'.takeByte?
    | some (.error e, b') =>
      some (if e.kind = .wouldBlock then .wouldBlock else .error e.kind, b')
  else b.takeByte?

/-- Reads on until the window holds a line end, of which the first `scanned` bytes hold none. -/
def scanLine? (b : BufferReader σ) (max scanned : Nat) :
    Option (Except IoError (Option Bytes) × BufferReader σ) :=
  match _hs : slice? b.cells (b.head + scanned) b.tail with
  | none => none
  | some pending =>
    match splitAtByte? lf pending with
    | some (pre, _) =>
      let stop := b.head + scanned + pre.length + 1
      if max < stop - b.head then some (.error { kind := .invalidData }, b)
      else
        (slice? b.cells b.head stop).map fun line => (.ok (some line), { b with head := stop })
    | none =>
      if max < b.buffered then some (.error { kind := .invalidData }, b)
      else
        match _hf : b.fill? with
        | none => none
        | some (.error e, b') => some (.error e, b')
        | some (.ok 0, b') =>
          if b'.buffered = 0 then some (.ok none, b')
          else some (.error { kind := .unexpectedEof }, b')
        | some (.ok (_ + 1), b') => scanLine? b' max b.buffered
termination_by max + 1 - b.buffered
decreasing_by
  have := buffered_fill? (Nat.le_of_add_right_le (le_of_slice? _hs).1) _hf
  omega

theorem scanLine?_eq (b : BufferReader σ) (max scanned : Nat) :
    b.scanLine? max scanned =
      match slice? b.cells (b.head + scanned) b.tail with
      | none => none
      | some pending =>
        match splitAtByte? lf pending with
        | some (pre, _) =>
          let stop := b.head + scanned + pre.length + 1
          if max < stop - b.head then some (.error { kind := .invalidData }, b)
          else
            (slice? b.cells b.head stop).map fun line => (.ok (some line), { b with head := stop })
        | none =>
          if max < b.buffered then some (.error { kind := .invalidData }, b)
          else
            match b.fill? with
            | none => none
            | some (.error e, b') => some (.error e, b')
            | some (.ok 0, b') =>
              if b'.buffered = 0 then some (.ok none, b')
              else some (.error { kind := .unexpectedEof }, b')
            | some (.ok (_ + 1), b') => scanLine? b' max b.buffered := by
  rw [scanLine?]
  split
  · simp only [*]
  · split <;> simp only [*]
    split
    · rfl
    · split <;> simp only [*]

/-- Hands out the next line of at most `max` bytes. -/
def readLine? (b : BufferReader σ) (max : Nat) :
    Option (Except IoError (Option Bytes) × BufferReader σ) :=
  b.scanLine? max 0

/-- Hands out exactly `n` bytes, the buffered ones first and the others straight from the
source. -/
def readExact? (b : BufferReader σ) (n : Nat) :
    Option (Except (IoError × Bytes) Bytes × BufferReader σ) :=
  let count := min n b.buffered
  (slice? b.cells b.head (b.head + count)).map fun front =>
    let b := { b with head := b.head + count }
    if n - count = 0 then (.ok front, b)
    else
      match Source.readExact b.source (n - count) with
      | (.ok l, s) => (.ok (front ++ l), { b with source := s })
      | (.error e, s) => (.error (e, front), { b with source := s })

end BufferReader

end HttpServer
