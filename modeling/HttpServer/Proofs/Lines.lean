import HttpServer.Proofs.Buffering
import HttpServer.Proofs.Segmentation
import Mathlib.Data.List.Basic

/-!
# Which line comes next

What comes of asking for the next line depends only on the bytes that are to come, those in the
buffer and those still with the source, and not on where they are or in what pieces they arrive.
`firstLine` reads it off these bytes : a line that ends in time is cut off after its end, and
otherwise all bytes stay.

`BufferReader.readLine?_eq_firstLine` is this for a reader in any state that it can be in
(`BufferReader.Intact`). The search goes on behind the bytes that it has seen before, also after
these have moved to the front of the buffer or into a larger one, so that no line end is missed
and none is found in what was handed out before.
-/

namespace HttpServer

/-- The first line of these bytes if it ends within the first `max` of them, or why there is
none, and the bytes that are left. -/
def firstLine (max : Nat) (l : Bytes) : Except IoError (Option Bytes) × Bytes :=
  if lf ∈ l.take max then (.ok (some (l.take (l.idxOf lf + 1))), l.drop (l.idxOf lf + 1))
  else if max < l.length then (.error { kind := .invalidData }, l)
  else if l = [] then (.ok none, l)
  else (.error { kind := .unexpectedEof }, l)

namespace Reader

variable {max : Nat} {l left : Bytes} {x : Except IoError (Option Bytes)}

theorem NextLine.eq_firstLine (h : NextLine max l x left) : firstLine max l = (x, left) := by
  unfold firstLine
  cases h with
  | @line pre _ hpre hmax =>
    have hmem : lf ∈ (pre ++ lf :: left).take max := by
      rw [List.take_append, List.mem_append, List.take_cons (by omega)]
      exact .inr List.mem_cons_self
    have hend : (pre ++ lf :: left).idxOf lf + 1 = (pre ++ [lf]).length := by
      rw [List.idxOf_append_of_notMem hpre, List.idxOf_cons_self, Nat.add_zero,
        List.length_append, List.length_singleton]
    have hcut : pre ++ lf :: left = (pre ++ [lf]) ++ left := List.append_cons pre lf left
    rw [if_pos hmem, hend, hcut, List.take_left, List.drop_left]
  | overlong hlen hmem => rw [if_neg hmem, if_pos hlen]
  | ended => simp
  | cut hne hlen hmem =>
    rw [if_neg (mt List.mem_of_mem_take hmem), if_neg (Nat.not_lt.2 hlen), if_neg hne]

/-! ## A buffer never shrinks -/

variable {σ : Type} [Source σ] {r r' : Reader σ}

theorem size_le_fill {y : Except IoError Bytes} (h : r.fill = (y, r')) : r.size ≤ r'.size := by
  have hroom := size_le_makeRoom r
  unfold fill at h
  split at h <;> cases h <;> exact hroom

theorem size_le_readByte (r : Reader σ) : r.size ≤ r.readByte.2.size := by
  unfold readByte
  split
  · exact Nat.le_refl _
  · split <;> rename_i hf <;> exact (size_le_fill hf :)

theorem size_le_scanLine (r : Reader σ) (max scanned : Nat) :
    r.size ≤ (r.scanLine max scanned).2.size := by
  fun_induction scanLine r max scanned with
  | case1 | case2 | case3 => exact Nat.le_refl _
  | case4 r scanned hsplit hshort e r' hf => exact size_le_fill hf
  | case5 r scanned hsplit hshort r' hf => exact size_le_fill hf
  | case6 r scanned hsplit hshort r' hf => exact size_le_fill hf
  | case7 r scanned hsplit hshort c l r' hf ih => exact Nat.le_trans (size_le_fill hf) ih

theorem size_readExact (r : Reader σ) (n : Nat) : (r.readExact n).2.size = r.size := by
  rcases Nat.lt_or_ge r.window.length n with hn | hn
  · rw [readExact_of_short hn]
    split <;> rfl
  · rw [readExact_of_buffered hn]

theorem size_le_answer (r : Reader σ) (c : Call) : r.size ≤ (r.answer c).2.size := by
  cases c with
  | byte => exact size_le_readByte r
  | line max => exact size_le_scanLine r max 0
  | exact n => exact Nat.le_of_eq (size_readExact r n).symm

theorem size_le_answerEach (r : Reader σ) (calls : List Call) :
    r.size ≤ (r.answerEach calls).2.size := by
  induction calls generalizing r with
  | nil => exact Nat.le_refl _
  | cons c calls ih => exact Nat.le_trans (size_le_answer r c) (ih (r.answer c).2)

end Reader

namespace BufferReader

variable {σ : Type}

/-- The cursors are in order and in the buffer, which has cells. -/
structure Intact (b : BufferReader σ) : Prop where
  inOrder : b.InOrder
  length_pos : 0 < b.cells.length

theorem intact_withCapacity (capacity : Nat) (s : σ) : (withCapacity capacity s).Intact where
  inOrder := inOrder_withCapacity capacity s
  length_pos := by
    rw [withCapacity, List.length_replicate]
    omega

variable [Source σ] {P : σ → Bytes → Prop} {b : BufferReader σ}

/-- Calls leave a reader intact, whatever comes of them. -/
theorem Intact.answerEach? (h : b.Intact) (calls : List Reader.Call) :
    ∃ answers b', b.answerEach? calls = some (answers, b') ∧ b'.Intact := by
  obtain ⟨b', hanswers, hb', hreader⟩ := answerEach?_agrees h.inOrder calls
  have hsize := Reader.size_le_answerEach b.reader calls
  rw [← hreader] at hsize
  exact ⟨_, b', hanswers, hb', Nat.lt_of_lt_of_le h.length_pos hsize⟩

omit [Source σ] in
/-- A reader in front of a source that delivers the bytes to come holds these behind its
window. -/
theorem Intact.holds (h : b.Intact) {toCome : Bytes} (hs : P b.source toCome) :
    b.reader.Holds P (b.window ++ toCome) where
  size_pos := h.length_pos
  tail_le := Nat.le_trans (Nat.le_of_eq h.inOrder.tail_reader) h.inOrder.tail_le
  bytes := ⟨toCome, rfl, hs⟩

/-- A reader stays intact, from the start and whatever is asked of it. In front of a source that
delivers the bytes to come, in any pieces and with any interruptions, the answer to a request for
a line is `firstLine` of the bytes in the buffer followed by these, and so are the bytes that the
reader has from then on. -/
theorem readLine?_eq_firstLine :
    (∀ capacity (s : σ) calls, ∃ answers b,
      (withCapacity capacity s).answerEach? calls = some (answers, b) ∧ b.Intact) ∧
    ∀ P, Source.IsDelivery P → ∀ b : BufferReader σ, b.Intact →
      ∀ toCome, P b.source toCome → ∀ max, ∃ b' toCome',
        b.readLine? max = some ((firstLine max (b.window ++ toCome)).1, b') ∧ b'.Intact ∧
        P b'.source toCome' ∧ b'.window ++ toCome' = (firstLine max (b.window ++ toCome)).2 := by
  refine ⟨fun capacity s => (intact_withCapacity capacity s).answerEach?,
    fun P hP b hb toCome hs max => ?_⟩
  obtain ⟨x, left, r, hread, hnext, hr⟩ := Reader.readLine_of_holds hP (hb.holds hs) max
  obtain ⟨b', hanswer, hb', hreader⟩ := readLine?_agrees hb.inOrder max
  obtain ⟨toCome', hleft, hs'⟩ := hr.bytes
  rw [hread] at hanswer hreader
  subst hreader
  rw [hnext.eq_firstLine]
  exact ⟨b', toCome', hanswer, ⟨hb', hr.size_pos⟩, hs', hleft.symm⟩

/-- A line of four bytes in pieces, and the start of another one. -/
def tornLine : ScriptSource where
  arrivals := [.chunk (utf8 "a"), .failure .interrupted, .chunk (utf8 "bc"),
    .failure .interrupted, .chunk (utf8 "\nde")]

/-- The line ends just in time, and what came with its end is still there. -/
theorem readLine?_eq_firstLine_tornLine : ∃ b toCome,
    (withCapacity 0 tornLine).readLine? 4 = some (.ok (some (utf8 "abc\n")), b) ∧
      b.source.Delivers toCome ∧ b.window ++ toCome = utf8 "de" := by
  have htorn : tornLine.Delivers (utf8 "abc\nde") :=
    ⟨rfl, by simp [tornLine, ScriptSource.Passing]; decide, by decide⟩
  obtain ⟨b, toCome, hread, -, hs, hleft⟩ := readLine?_eq_firstLine.2 _ ScriptSource.isDelivery
    _ (intact_withCapacity 0 tornLine) _ htorn 4
  exact ⟨b, toCome, hread, hs, hleft⟩

end BufferReader

end HttpServer
