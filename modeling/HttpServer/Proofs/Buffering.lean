import HttpServer.Proofs.Recording
import HttpServer.Proofs.Supply
import HttpServer.Stream.BufferReader
import HttpServer.Stream.Script

/-!
# A reader cell by cell

A `BufferReader` answers a call only if every stretch of cells that the call asks for is in the
buffer. It answers every call, and answers it like the `Reader` that it stands for
(`BufferReader.answerEach?_agrees`) : the cells between the cursors are the window, and the
others do not show.

A reader whose lines are limited to `M` bytes doubles its buffer only if it is full of an
unfinished line, so the buffer has at most `2 * M` cells, unless it had more from the start. It
never reads into a space of no size, so a read that brings nothing is the end of the source
(`Reader.InBounds`). `BufferReader.answerEach?_in_bounds` is both together, for every run of calls
and every state of the search for a line end.
-/

namespace HttpServer

variable {σ α β : Type}

namespace BufferReader

/-! ## The reader that it stands for -/

/-- The cursors are in order and in the buffer. -/
structure InOrder (b : BufferReader σ) : Prop where
  head_le : b.head ≤ b.tail
  tail_le : b.tail ≤ b.cells.length

/-- The reader without the cells outside its window. -/
def reader (b : BufferReader σ) : Reader σ :=
  { source := b.source, window := b.window, head := b.head, size := b.cells.length }

/-- A call has an answer, and both are as with the reader. -/
def Agrees (x? : Option (α × BufferReader σ)) (x : α × Reader σ) : Prop :=
  ∃ b, x? = some (x.1, b) ∧ b.InOrder ∧ b.reader = x.2

theorem Agrees.map {x? : Option (α × BufferReader σ)} {x : α × Reader σ} (h : Agrees x? x)
    (f : α → β) : Agrees (x?.map fun y => (f y.1, y.2)) (f x.1, x.2) := by
  obtain ⟨b, rfl, hb⟩ := h
  exact ⟨b, rfl, hb⟩

variable {b : BufferReader σ}

theorem inOrder_withCapacity (capacity : Nat) (s : σ) : (withCapacity capacity s).InOrder :=
  ⟨Nat.le_refl _, Nat.zero_le _⟩

theorem reader_withCapacity (capacity : Nat) (s : σ) :
    (withCapacity capacity s).reader = Reader.withCapacity capacity s := by
  simp [reader, withCapacity, Reader.withCapacity, window]

theorem window_reader (b : BufferReader σ) : b.reader.window = b.window := rfl

theorem InOrder.length_window (h : b.InOrder) : b.window.length = b.buffered := by
  have htail := h.tail_le
  rw [window, List.length_drop, List.length_take, Nat.min_eq_left htail, buffered]

theorem InOrder.window_eq_nil_iff (h : b.InOrder) : b.window = [] ↔ b.head = b.tail := by
  have hhead := h.head_le
  rw [← List.length_eq_zero_iff, h.length_window, buffered]
  omega

theorem InOrder.tail_reader (h : b.InOrder) : b.reader.tail = b.tail := by
  have hhead := h.head_le
  change b.head + b.window.length = b.tail
  rw [h.length_window, buffered]
  omega

/-- A stretch of the window is in the buffer. -/
theorem InOrder.slice?_window (h : b.InOrder) {i j : Nat} (hij : i ≤ j)
    (hj : j ≤ b.window.length) :
    slice? b.cells (b.head + i) (b.head + j) = some ((b.window.take j).drop i) := by
  have htail := h.tail_le
  rw [h.length_window, buffered] at hj
  have hhead := h.head_le
  rw [slice?_eq (by omega) (by omega), window, List.take_drop, List.take_take, List.drop_drop,
    Nat.min_eq_left (by omega)]

/-! ## Making room -/

theorem makeRoom?_eq (h : b.InOrder) :
    ∃ b', b.makeRoom? = some b' ∧ b'.InOrder ∧ b'.reader = b.reader.makeRoom := by
  have htail := h.tail_reader
  unfold makeRoom? Reader.makeRoom
  by_cases hempty : b.head = b.tail
  · have hw : b.reader.window = [] := h.window_eq_nil_iff.2 hempty
    rw [if_pos hempty, if_pos hw]
    refine ⟨_, rfl, ⟨Nat.le_refl _, Nat.zero_le _⟩, ?_⟩
    rw [hw]
    simp [reader, window]
  have hw : b.reader.window ≠ [] := mt h.window_eq_nil_iff.1 hempty
  rw [if_neg hempty, if_neg hw]
  by_cases hend : b.tail = b.cells.length
  · have hfull : b.reader.tail = b.reader.size := htail.trans hend
    rw [if_pos hend, if_pos hfull]
    have hlen := h.length_window
    by_cases hfront : 0 < b.head
    · have hmoved := h.slice?_window (Nat.zero_le _) (Nat.le_refl _)
      rw [List.take_length, List.drop_zero, hlen, buffered, Nat.add_zero,
        Nat.add_sub_of_le h.head_le] at hmoved
      rw [buffered] at hlen
      have hfits : 0 + b.window.length ≤ b.cells.length := by omega
      obtain ⟨cells, hcells, hsize, hprefix⟩ := overwrite?_eq hfits
      have hfront' : 0 < b.reader.head := hfront
      rw [if_pos hfront, if_pos hfront', hmoved, Option.bind_some, hcells]
      rw [List.take_zero, List.nil_append, Nat.zero_add, hlen] at hprefix
      refine ⟨_, rfl, ⟨Nat.zero_le _, ?_⟩, ?_⟩
      · change b.tail - b.head ≤ cells.length
        omega
      · simp only [reader, window, hprefix, hsize, List.drop_zero]
    · have hfront' : ¬0 < b.reader.head := hfront
      rw [if_neg hfront, if_neg hfront']
      refine ⟨_, rfl, ⟨h.head_le, ?_⟩, ?_⟩
      · rw [List.length_append]
        exact Nat.le_add_right_of_le h.tail_le
      · simp only [reader, window, List.length_append, List.length_replicate,
          List.take_append_of_le_length h.tail_le]
        rw [Nat.mul_two]
  · have hfull : ¬b.reader.tail = b.reader.size := fun hfull => hend (htail.symm.trans hfull)
    rw [if_neg hend, if_neg hfull]
    exact ⟨b, rfl, h, rfl⟩

variable [Source σ]

/-- A read into the free cells, of which the number of bytes is the answer. -/
theorem fill?_agrees (h : b.InOrder) :
    Agrees b.fill? (b.reader.fill.1.map List.length, b.reader.fill.2) := by
  obtain ⟨b', hroom, hb', hreader⟩ := makeRoom?_eq h
  have htail := hb'.tail_le
  have hspace : b.reader.makeRoom.room = b'.cells.length - b'.tail := by
    rw [← hreader, Reader.room, hb'.tail_reader]
    rfl
  have hfree : ((b'.cells.take b'.cells.length).drop b'.tail).length = b.reader.makeRoom.room := by
    rw [List.take_length, List.length_drop, hspace]
  have hsource : b.reader.makeRoom.source = b'.source := by
    rw [← hreader]
    rfl
  rw [fill?, hroom, Option.bind_some, slice?_eq htail (Nat.le_refl _), Option.bind_some, hfree,
    ← hsource, Reader.fill]
  rcases hf : Source.fetch b.reader.makeRoom.source b.reader.makeRoom.room with ⟨e | l, s⟩
  · refine ⟨_, rfl, ⟨hb'.head_le, hb'.tail_le⟩, ?_⟩
    rw [← hreader]
    rfl
  · have hlen := Source.fetch_length_le hf
    rw [hspace] at hlen
    have hfits : b'.tail + l.length ≤ b'.cells.length := by omega
    obtain ⟨cells, hcells, hsize, hprefix⟩ := overwrite?_eq hfits
    refine ⟨{ b' with source := s, cells, tail := b'.tail + l.length }, ?_,
      ⟨Nat.le_add_right_of_le hb'.head_le, ?_⟩, ?_⟩
    · simp only [hcells, Option.map_some]
      rfl
    · change b'.tail + l.length ≤ cells.length
      omega
    · rw [← hreader]
      have hwindow : ((b'.cells.take b'.tail) ++ l).drop b'.head = b'.window ++ l :=
        List.drop_append_of_le_length (by rw [List.length_take]; have := hb'.head_le; omega)
      simp only [reader, window, hprefix, hsize, hwindow]

theorem fill?_eq (h : b.InOrder) {x : Except IoError Bytes} {r' : Reader σ}
    (hf : b.reader.fill = (x, r')) :
    ∃ b', b.fill? = some (x.map List.length, b') ∧ b'.InOrder ∧ b'.reader = r' := by
  have hagrees := fill?_agrees h
  rwa [hf] at hagrees

/-! ## Bytes -/

omit [Source σ] in
/-- What is handed out is the front of the window. -/
theorem InOrder.take (h : b.InOrder) {n : Nat} (hn : n ≤ b.window.length) :
    InOrder { b with head := b.head + n } ∧ reader { b with head := b.head + n } =
      { b.reader with window := b.window.drop n, head := b.head + n } := by
  have hhead := h.head_le
  rw [h.length_window, buffered] at hn
  refine ⟨⟨?_, h.tail_le⟩, ?_⟩
  · change b.head + n ≤ b.tail
    omega
  · simp only [reader, window, List.drop_drop]

omit [Source σ] in
theorem takeByte?_agrees (h : b.InOrder) {c : UInt8} {l : Bytes} (hw : b.window = c :: l) :
    Agrees b.takeByte? (.byte c, { b.reader with window := l, head := b.head + 1 }) := by
  have hcell : b.cells[b.head]? = some c := by
    have hfirst : b.window[0]? = some c := by rw [hw]; rfl
    rw [window, List.getElem?_drop, Nat.add_zero, List.getElem?_take] at hfirst
    split at hfirst
    · exact hfirst
    · cases hfirst
  obtain ⟨horder, hreader⟩ := h.take (n := 1) (by rw [hw]; exact Nat.le_add_left _ _)
  rw [hw] at hreader
  rw [takeByte?, hcell]
  exact ⟨_, rfl, horder, hreader⟩

theorem readByte?_agrees (h : b.InOrder) : Agrees b.readByte? b.reader.readByte := by
  unfold readByte? Reader.readByte
  by_cases hempty : b.head = b.tail
  · have hw : b.reader.window = [] := h.window_eq_nil_iff.2 hempty
    rw [if_pos hempty, hw]
    rcases hf : b.reader.fill with ⟨e | _ | ⟨c, l⟩, r'⟩
    all_goals
      obtain ⟨b', hfill, hb', rfl⟩ := fill?_eq h hf
      rw [hfill]
    · exact ⟨b', rfl, hb', rfl⟩
    · exact ⟨b', rfl, hb', rfl⟩
    · have hw' := Reader.window_fill_ok hf
      rw [hw, List.nil_append] at hw'
      exact takeByte?_agrees hb' hw'
  · rw [if_neg hempty]
    rcases hw : b.reader.window with _ | ⟨c, l⟩
    · exact absurd (h.window_eq_nil_iff.1 hw) hempty
    · exact takeByte?_agrees h hw

/-! ## Lines -/

omit [Source σ] in
theorem InOrder.slice?_pending (h : b.InOrder) {scanned : Nat} (hs : scanned ≤ b.window.length) :
    slice? b.cells (b.head + scanned) b.tail = some (b.window.drop scanned) := by
  have hhead := h.head_le
  have hslice := h.slice?_window hs (Nat.le_refl _)
  rwa [List.take_length, h.length_window, buffered, Nat.add_sub_of_le hhead] at hslice

omit [Source σ] in
/-- A line that is found is the front of the window. -/
theorem window_eq_of_split {scanned : Nat} {pre post : Bytes}
    (hsplit : splitAtByte? lf (b.window.drop scanned) = some (pre, post)) :
    b.window = (b.window.take scanned ++ pre ++ [lf]) ++ post := by
  rw [List.append_assoc, List.append_assoc, List.singleton_append,
    ← (splitAtByte?_eq_some hsplit).1, List.take_append_drop]

/-- A window with a line end has the line. -/
theorem scanLine?_of_finished (h : b.InOrder) {max scanned : Nat} {pre post line : Bytes}
    (hs : scanned ≤ b.window.length)
    (hsplit : splitAtByte? lf (b.window.drop scanned) = some (pre, post))
    (hline : line = b.window.take scanned ++ pre ++ [lf]) :
    b.scanLine? max scanned =
      if max < line.length then some (.error { kind := .invalidData }, b)
      else some (.ok (some line), { b with head := b.head + line.length }) := by
  have hlen : line.length = scanned + pre.length + 1 := by
    rw [hline, List.length_append, List.length_append, List.length_take_of_le hs,
      List.length_singleton]
  have hw := window_eq_of_split hsplit
  rw [← hline] at hw
  have hstop : b.head + scanned + pre.length + 1 = b.head + line.length := by omega
  have hslice := h.slice?_window (Nat.zero_le line.length)
    (by rw [hw, List.length_append]; exact Nat.le_add_right _ _)
  rw [Nat.add_zero, List.drop_zero, hw, List.take_left] at hslice
  rw [scanLine?_eq, h.slice?_pending hs]
  dsimp only
  rw [hsplit]
  dsimp only
  rw [hstop, Nat.add_sub_cancel_left, hslice]
  rfl

/-- A window with no line end has to be filled. -/
theorem scanLine?_of_unfinished (h : b.InOrder) {max scanned : Nat}
    (hs : scanned ≤ b.window.length) (hsplit : splitAtByte? lf (b.window.drop scanned) = none)
    (hmax : b.window.length ≤ max) :
    b.scanLine? max scanned =
      match b.fill? with
      | none => none
      | some (.error e, b') => some (.error e, b')
      | some (.ok 0, b') =>
        if b'.buffered = 0 then some (.ok none, b')
        else some (.error { kind := .unexpectedEof }, b')
      | some (.ok (_ + 1), b') => scanLine? b' max b.buffered := by
  rw [h.length_window] at hmax
  rw [scanLine?_eq, h.slice?_pending hs]
  dsimp only
  rw [hsplit]
  exact if_neg (Nat.not_lt.2 hmax)

/-- The search for a line end stays in the window. -/
theorem scanLine?_agrees (h : b.InOrder) {max scanned : Nat} (hs : scanned ≤ b.window.length) :
    Agrees (b.scanLine? max scanned) (b.reader.scanLine max scanned) := by
  generalize hr : b.reader = r
  fun_induction Reader.scanLine r max scanned generalizing b with
  | case1 r scanned pre post hsplit line =>
    rename_i hlong
    subst hr
    exact ⟨b, (scanLine?_of_finished h hs hsplit rfl).trans (if_pos hlong), h, rfl⟩
  | case2 r scanned pre post hsplit line =>
    rename_i hshort
    subst hr
    have hw : b.window = line ++ post := window_eq_of_split hsplit
    have hlen : line.length ≤ b.window.length := by
      have hsum : b.window.length = line.length + post.length :=
        (congrArg List.length hw).trans List.length_append
      omega
    obtain ⟨horder, hreader⟩ := h.take hlen
    rw [hw, List.drop_left] at hreader
    exact ⟨_, (scanLine?_of_finished h hs hsplit rfl).trans (if_neg hshort), horder, hreader⟩
  | case3 r scanned hsplit hlong =>
    subst hr
    rw [window_reader] at hsplit hlong
    rw [h.length_window] at hlong
    refine ⟨b, ?_, h, rfl⟩
    rw [scanLine?_eq, h.slice?_pending hs]
    dsimp only
    rw [hsplit]
    exact if_pos hlong
  | case4 r scanned hsplit hshort e r' hf =>
    subst hr
    obtain ⟨b', hfill, hb', hreader⟩ := fill?_eq h hf
    rw [scanLine?_of_unfinished h hs hsplit (Nat.le_of_not_lt hshort), hfill]
    exact ⟨b', rfl, hb', hreader⟩
  | case5 r scanned hsplit hshort r' hf hw =>
    subst hr
    obtain ⟨b', hfill, hb', hreader⟩ := fill?_eq h hf
    have hempty : b'.buffered = 0 := by
      rw [← hb'.length_window, List.length_eq_zero_iff]
      exact (congrArg Reader.window hreader).trans hw
    rw [scanLine?_of_unfinished h hs hsplit (Nat.le_of_not_lt hshort), hfill]
    exact ⟨b', if_pos hempty, hb', hreader⟩
  | case6 r scanned hsplit hshort r' hf hw =>
    subst hr
    obtain ⟨b', hfill, hb', hreader⟩ := fill?_eq h hf
    have hempty : ¬b'.buffered = 0 := by
      rw [← hb'.length_window, List.length_eq_zero_iff]
      exact fun hnil => hw ((congrArg Reader.window hreader).symm.trans hnil)
    rw [scanLine?_of_unfinished h hs hsplit (Nat.le_of_not_lt hshort), hfill]
    exact ⟨b', if_neg hempty, hb', hreader⟩
  | case7 r scanned hsplit hshort c l r' hf ih =>
    subst hr
    obtain ⟨b', hfill, hb', hreader⟩ := fill?_eq h hf
    rw [scanLine?_of_unfinished h hs hsplit (Nat.le_of_not_lt hshort), hfill, ← h.length_window]
    obtain rfl : b'.reader = r' := hreader
    refine ih hb' ?_ rfl
    rw [← window_reader b', Reader.window_fill_ok hf, List.length_append]
    exact Nat.le_add_right _ _

theorem readLine?_agrees (h : b.InOrder) (max : Nat) :
    Agrees (b.readLine? max) (b.reader.readLine max) :=
  scanLine?_agrees h (Nat.zero_le _)

/-! ## Bodies -/

theorem readExact?_agrees (h : b.InOrder) (n : Nat) :
    Agrees (b.readExact? n) (b.reader.readExact n) := by
  have hcount : min n b.buffered ≤ b.window.length := by
    rw [h.length_window]
    exact Nat.min_le_right _ _
  have hfront := h.slice?_window (Nat.zero_le _) hcount
  obtain ⟨horder, hreader⟩ := h.take hcount
  rw [Nat.add_zero, List.drop_zero] at hfront
  rw [readExact?, hfront]
  rcases Nat.lt_or_ge b.window.length n with hn | hn
  · have hmin : min n b.buffered = b.window.length := by
      rw [h.length_window] at hn ⊢
      exact Nat.min_eq_right (Nat.le_of_lt hn)
    rw [hmin] at horder hreader ⊢
    rw [List.drop_length] at hreader
    have hsource : b.reader.source = b.source := rfl
    rw [Reader.readExact_of_short hn, hsource, window_reader]
    dsimp only [Option.map_some]
    rw [if_neg (Nat.sub_ne_zero_of_lt hn), List.take_length]
    rcases Source.readExact b.source (n - b.window.length) with ⟨e | l, s⟩
    · exact ⟨_, rfl, ⟨horder.head_le, horder.tail_le⟩,
        congrArg (fun r : Reader σ => { r with source := s }) hreader⟩
    · exact ⟨_, rfl, ⟨horder.head_le, horder.tail_le⟩,
        congrArg (fun r : Reader σ => { r with source := s }) hreader⟩
  · have hmin : min n b.buffered = n := by
      rw [h.length_window] at hn
      exact Nat.min_eq_left hn
    rw [hmin] at horder hreader ⊢
    rw [Reader.readExact_of_buffered hn]
    refine ⟨_, ?_, horder, hreader⟩
    dsimp only [Option.map_some]
    rw [Nat.sub_self, if_pos rfl]
    rfl

/-! ## Calls -/

/-- One call. -/
def answer? (b : BufferReader σ) : Reader.Call → Option (Reader.Answer × BufferReader σ)
  | .byte => b.readByte?.map fun x => (.byte x.1, x.2)
  | .line max => (b.readLine? max).map fun x => (.line x.1, x.2)
  | .exact n => (b.readExact? n).map fun x => (.exact x.1, x.2)

/-- Calls, one after the other. -/
def answerEach? (b : BufferReader σ) :
    List Reader.Call → Option (List Reader.Answer × BufferReader σ)
  | [] => some ([], b)
  | c :: cs => (b.answer? c).bind fun x => (x.2.answerEach? cs).map fun y => (x.1 :: y.1, y.2)

theorem answer?_agrees (h : b.InOrder) (c : Reader.Call) :
    Agrees (b.answer? c) (b.reader.answer c) := by
  cases c with
  | byte => exact (readByte?_agrees h).map Reader.Answer.byte
  | line max => exact (readLine?_agrees h max).map Reader.Answer.line
  | exact n => exact (readExact?_agrees h n).map Reader.Answer.exact

/-- Every call is answered, and like the reader answers it. -/
theorem answerEach?_agrees (h : b.InOrder) (cs : List Reader.Call) :
    Agrees (b.answerEach? cs) (b.reader.answerEach cs) := by
  induction cs generalizing b with
  | nil => exact ⟨b, rfl, h, rfl⟩
  | cons c cs ih =>
    obtain ⟨b', hanswer, hb', hreader⟩ := answer?_agrees h c
    obtain ⟨b'', hrest, hb'', hreader'⟩ := ih hb'
    rw [hreader] at hrest hreader'
    refine ⟨b'', ?_, hb'', hreader'⟩
    rw [answerEach?, hanswer, Option.bind_some, hrest]
    rfl

end BufferReader

/-! ## How large the buffer grows -/

namespace Reader

/-- The buffer is not larger than `bound`, and no read was offered a space of no size. -/
structure InBounds (bound : Nat) (r : Reader (Recorded σ)) : Prop where
  size_pos : 0 < r.size
  tail_le : r.tail ≤ r.size
  size_le : r.size ≤ bound
  offered : r.source.Offered

/-- Only a buffer that is full from the front doubles. -/
theorem size_makeRoom_le {r : Reader σ} {M : Nat} (hw : r.window.length ≤ M) :
    r.makeRoom.size ≤ max r.size (2 * M) := by
  unfold makeRoom
  split
  · exact Nat.le_max_left _ _
  · split
    · rename_i hfull
      split
      · exact Nat.le_max_left _ _
      · rw [tail] at hfull
        change r.size * 2 ≤ _
        omega
    · exact Nat.le_max_left _ _

variable [Source σ] {r : Reader (Recorded σ)} {bound M : Nat}

omit [Source σ] in
theorem inBounds_withCapacity (capacity : Nat) (s : σ) (h : max capacity 16 ≤ bound) :
    (withCapacity capacity ({ source := s } : Recorded σ)).InBounds bound where
  size_pos := Nat.lt_of_lt_of_le (by decide) (Nat.le_max_right capacity 16)
  tail_le := Nat.zero_le _
  size_le := h
  offered := fun _ hx => absurd hx List.not_mem_nil

omit [Source σ] in
theorem InBounds.drop (h : r.InBounds bound) {l : Bytes} {n : Nat}
    (hl : n + l.length ≤ r.window.length) :
    InBounds bound { r with window := l, head := r.head + n } := by
  have htail := h.tail_le
  refine ⟨h.size_pos, ?_, h.size_le, h.offered⟩
  rw [tail] at htail ⊢
  change r.head + n + l.length ≤ r.size
  omega

/-- A window of at most `M` bytes needs no more than twice the space. -/
theorem InBounds.fill (h : r.InBounds bound) (hM : 2 * M ≤ bound) (hw : r.window.length ≤ M)
    {x : Except IoError Bytes} {r' : Reader (Recorded σ)} (hf : r.fill = (x, r')) :
    r'.InBounds bound := by
  have hholds : r.Holds (fun _ _ => True) r.window :=
    ⟨h.size_pos, h.tail_le, [], (List.append_nil _).symm, trivial⟩
  have hroom := room_makeRoom_pos hholds
  have htail := tail_makeRoom_le h.tail_le
  have hpos := Nat.lt_of_lt_of_le h.size_pos (size_le_makeRoom r)
  have hsize : r.makeRoom.size ≤ bound :=
    Nat.le_trans (size_makeRoom_le hw) (Nat.max_le.2 ⟨h.size_le, hM⟩)
  have hoffered : r.makeRoom.source.Offered := source_makeRoom r ▸ h.offered
  unfold Reader.fill at hf
  split at hf <;> rename_i hfetch <;> cases hf
  · refine ⟨hpos, ?_, hsize, Recorded.offered_fetch hoffered hroom hfetch⟩
    have hlen := Source.fetch_length_le hfetch
    rw [room] at hlen
    change r.makeRoom.head + (r.makeRoom.window ++ _).length ≤ r.makeRoom.size
    rw [tail] at hlen htail
    rw [List.length_append]
    omega
  · exact ⟨hpos, htail, hsize, Recorded.offered_fetch hoffered hroom hfetch⟩

theorem InBounds.readByte (h : r.InBounds bound) : r.readByte.2.InBounds bound := by
  unfold Reader.readByte
  split
  · rename_i c l hw
    exact h.drop (by rw [hw, List.length_cons]; omega)
  · rename_i hw
    have hnone : r.window.length ≤ 0 := Nat.le_of_eq (congrArg List.length hw)
    split
    · rename_i c l r' hf
      have hw' := window_fill_ok hf
      rw [hw, List.nil_append] at hw'
      exact (h.fill (Nat.zero_le bound) hnone hf).drop (by rw [hw', List.length_cons]; omega)
    · rename_i hf
      exact h.fill (Nat.zero_le bound) hnone hf
    · rename_i hf
      exact h.fill (Nat.zero_le bound) hnone hf

theorem InBounds.scanLine (h : r.InBounds bound) (hM : 2 * M ≤ bound) {max scanned : Nat}
    (hmax : max ≤ M) (hs : scanned ≤ r.window.length) :
    (r.scanLine max scanned).2.InBounds bound := by
  fun_induction Reader.scanLine r max scanned with
  | case1 => exact h
  | case2 r scanned pre post hsplit line hshort =>
    have hw := congrArg List.length (splitAtByte?_eq_some hsplit).1
    rw [List.length_drop, List.length_append, List.length_cons] at hw
    refine h.drop ?_
    simp only [line, List.length_append, List.length_take_of_le hs, List.length_singleton]
    omega
  | case3 => exact h
  | case4 r scanned hsplit hshort e r' hf =>
    exact h.fill hM (Nat.le_trans (Nat.le_of_not_lt hshort) hmax) hf
  | case5 r scanned hsplit hshort r' hf hw =>
    exact h.fill hM (Nat.le_trans (Nat.le_of_not_lt hshort) hmax) hf
  | case6 r scanned hsplit hshort r' hf hw =>
    exact h.fill hM (Nat.le_trans (Nat.le_of_not_lt hshort) hmax) hf
  | case7 r scanned hsplit hshort c l r' hf ih =>
    refine ih (h.fill hM (Nat.le_trans (Nat.le_of_not_lt hshort) hmax) hf) ?_
    rw [window_fill_ok hf, List.length_append]
    exact Nat.le_add_right _ _

theorem InBounds.readExact (h : r.InBounds bound) (n : Nat) :
    (r.readExact n).2.InBounds bound := by
  rcases Nat.lt_or_ge r.window.length n with hn | hn
  · have hempty := h.drop (l := []) (n := r.window.length) (Nat.le_refl _)
    rw [readExact_of_short hn]
    rcases hread : Source.readExact r.source (n - r.window.length) with ⟨e | l, s⟩
    · exact ⟨hempty.size_pos, hempty.tail_le, hempty.size_le,
        Recorded.offered_readExact h.offered hread⟩
    · exact ⟨hempty.size_pos, hempty.tail_le, hempty.size_le,
        Recorded.offered_readExact h.offered hread⟩
  · rw [readExact_of_buffered hn]
    exact h.drop (by rw [List.length_drop]; omega)

theorem InBounds.answer (h : r.InBounds bound) (hM : 2 * M ≤ bound) {c : Call}
    (hc : ∀ max, c = .line max → max ≤ M) : (r.answer c).2.InBounds bound := by
  cases c with
  | byte => exact h.readByte
  | line max => exact h.scanLine hM (hc max rfl) (Nat.zero_le _)
  | exact n => exact h.readExact n

theorem InBounds.answerEach (h : r.InBounds bound) (hM : 2 * M ≤ bound) {cs : List Call}
    (hcs : ∀ max, .line max ∈ cs → max ≤ M) : (r.answerEach cs).2.InBounds bound := by
  induction cs generalizing r with
  | nil => exact h
  | cons c cs ih =>
    have hc : ∀ max, c = .line max → max ≤ M := fun max hmax => hcs max (hmax ▸ List.mem_cons_self)
    exact ih (h.answer hM hc) fun max hmem => hcs max (List.mem_cons_of_mem c hmem)

end Reader

/-! ## Every run -/

namespace BufferReader

variable [Source σ]

/-- In a search for a line of at most `max` bytes, the buffer and the number of bytes that were
looked at come to these. -/
inductive Scans (max : Nat) : BufferReader σ → Nat → BufferReader σ → Nat → Prop where
  /-- Nothing was read yet. -/
  | here {b : BufferReader σ} {scanned : Nat} : Scans max b scanned b scanned
  /-- The window has no line end, and something comes. -/
  | onward {b b' b'' : BufferReader σ} {pending : Bytes} {scanned scanned' n : Nat} :
    slice? b.cells (b.head + scanned) b.tail = some pending →
    splitAtByte? lf pending = none → b.buffered ≤ max → b.fill? = some (.ok (n + 1), b') →
    Scans max b' b.buffered b'' scanned' → Scans max b scanned b'' scanned'

/-- The search goes on from there. -/
theorem Scans.scanLine?_eq {max scanned scanned' : Nat} {b b' : BufferReader σ}
    (h : Scans max b scanned b' scanned') :
    b.scanLine? max scanned = b'.scanLine? max scanned' := by
  induction h with
  | here => rfl
  | onward hslice hsplit hmax hfill _ ih =>
    rw [BufferReader.scanLine?_eq, hslice]
    dsimp only
    rw [hsplit]
    dsimp only
    rw [if_neg (Nat.not_lt.2 hmax), hfill]
    exact ih

/-- The search stays in the buffer, and the buffer stays in its bounds. -/
theorem Scans.inBounds {max scanned scanned' M bound : Nat} {b b' : BufferReader (Recorded σ)}
    (h : Scans max b scanned b' scanned') (hb : b.InOrder) (hbound : b.reader.InBounds bound)
    (hscanned : b.head + scanned ≤ b.tail) (hM : 2 * M ≤ bound) (hmax : max ≤ M) :
    b'.InOrder ∧ b'.reader.InBounds bound ∧ b'.head + scanned' ≤ b'.tail := by
  induction h with
  | here => exact ⟨hb, hbound, hscanned⟩
  | @onward b b' b'' pending scanned scanned' n hslice hsplit hle hfill _ ih =>
    have hw : b.reader.window.length ≤ M := by
      rw [window_reader, hb.length_window]
      exact Nat.le_trans hle hmax
    have hgrown := buffered_fill? hb.head_le hfill
    obtain ⟨b₁, hfill', hb₁, hreader⟩ := fill?_agrees hb
    obtain ⟨-, rfl⟩ := Prod.mk.inj (Option.some.inj (hfill.symm.trans hfill'))
    refine ih hb₁ (hbound.fill hM hw (Prod.ext rfl hreader.symm)) ?_
    have hhead := hb₁.head_le
    rw [buffered] at hgrown ⊢
    rw [buffered] at hgrown
    omega

/-- Whatever comes of the calls before, the cursors are in order and in the buffer, the buffer is
not larger than it was or twice the longest line that is let in, no read was offered a space of
no size, and every stretch of cells that is asked for is there : the calls have answers, those
of the reader in front of the source itself. The same is true of every state of a search for a
line end. -/
theorem answerEach?_in_bounds (capacity M : Nat) (s : σ) (calls : List Reader.Call)
    (hM : ∀ max, .line max ∈ calls → max ≤ M) :
    ∃ answers b, (withCapacity capacity ({ source := s } : Recorded σ)).answerEach? calls =
        some (answers, b) ∧
      (Reader.withCapacity capacity s).answerEach calls = (answers, b.reader.unrecorded) ∧
      b.head ≤ b.tail ∧ b.tail ≤ b.cells.length ∧
      b.cells.length ≤ max (max capacity 16) (2 * M) ∧ b.source.Offered ∧
      ∀ max' ≤ M, ∀ b' scanned, Scans max' b 0 b' scanned →
        b.readLine? max' = b'.scanLine? max' scanned ∧
        b'.head + scanned ≤ b'.tail ∧ b'.tail ≤ b'.cells.length ∧
        b'.cells.length ≤ max (max capacity 16) (2 * M) ∧ b'.source.Offered := by
  have hle : 2 * M ≤ max (max capacity 16) (2 * M) := Nat.le_max_right _ _
  obtain ⟨b, hanswers, hb, hreader⟩ :=
    answerEach?_agrees (inOrder_withCapacity capacity ({ source := s } : Recorded σ)) calls
  rw [reader_withCapacity] at hanswers hreader
  have hbound : b.reader.InBounds (max (max capacity 16) (2 * M)) := by
    rw [hreader]
    exact (Reader.inBounds_withCapacity capacity s (Nat.le_max_left _ _)).answerEach hle hM
  refine ⟨_, b, hanswers, ?_, hb.head_le, hb.tail_le, hbound.size_le, hbound.offered, ?_⟩
  · rw [hreader]
    exact Reader.answerEach_unrecorded (Reader.withCapacity capacity { source := s }) calls
  · intro max' hmax b' scanned hscans
    obtain ⟨hb', hbound', hscanned⟩ := hscans.inBounds hb hbound hb.head_le hle hmax
    exact ⟨hscans.scanLine?_eq, hscanned, hb'.tail_le, hbound'.size_le, hbound'.offered⟩

/-- A source that falls silent inside its line. -/
def silentSource : ScriptSource where
  arrivals := [.chunk (utf8 "a line of more bytes "), .failure .interrupted, .failure .wouldBlock,
    .chunk (utf8 "than 16\n!")]

/-- The line is asked for a second time, and the buffer of 16 bytes has doubled for it. -/
theorem answerEach?_in_bounds_silentSource :
    (∀ max, .line max ∈ [.line 30, .line 30, .byte, Reader.Call.exact 1] → max ≤ 30) ∧
      ∃ answers b, (withCapacity 1 ({ source := silentSource } : Recorded _)).answerEach?
          [.line 30, .line 30, .byte, .exact 1] = some (answers, b) ∧
        answers.map Reader.Answer.handed =
          [[], utf8 "a line of more bytes than 16\n", utf8 "!", []] ∧
        b.head ≤ b.tail ∧ b.tail ≤ b.cells.length ∧ b.cells.length ≤ 60 ∧ b.source.Offered := by
  have hM : ∀ max, .line max ∈ [.line 30, .line 30, .byte, Reader.Call.exact 1] → max ≤ 30 := by
    simp
  obtain ⟨answers, b, hrun, hreader, hhead, htail, hsize, hoffered, -⟩ :=
    answerEach?_in_bounds 1 30 silentSource _ hM
  have hanswers : answers = _ := (congrArg Prod.fst hreader).symm
  refine ⟨hM, answers, b, hrun, ?_, hhead, htail, hsize, hoffered⟩
  rw [hanswers]
  decide +kernel

end BufferReader

end HttpServer
