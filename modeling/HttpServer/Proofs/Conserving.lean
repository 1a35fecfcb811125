import HttpServer.Proofs.Buffering

/-!
# Nothing is lost in a reader

Between two states of a reader, bytes have come from the source behind its window and others were
handed out in front of it. `Reader.Flows` says that they are the same bytes in the same order :
what was there and what came is what was handed out and what is there now. It holds over every
call but a stretch that the source cuts off, and so over every run of such calls
(`Reader.flows_answerEach`).

`BufferReader.handed_append_window` is the balance of a run that starts with an empty buffer. A
byte or a line that is asked for in vain is no loss : all that was there stays there, in front of
what came meanwhile.
-/

namespace HttpServer

variable {σ : Type}

namespace Reader

/-- A byte or a line was asked for in vain. -/
def Answer.isRefusal : Answer → Bool
  | byte (.byte _) => false
  | line (.ok (some _)) => false
  | exact _ => false
  | _ => true

theorem Answer.handed_of_isRefusal : {a : Answer} → a.isRefusal = true → a.handed = []
  | byte .eof, _ | byte .wouldBlock, _ | byte (.error _), _ => rfl
  | line (.ok none), _ | line (.error _), _ => rfl

theorem Answer.isCut_of_isRefusal : {a : Answer} → a.isRefusal = true → a.isCut = false
  | byte _, _ | line _, _ => rfl

/-! ## What flows through a reader -/

/-- From one state to the other, `l` was handed out, and all else that was there or came is still
there in its order. -/
def Flows (r : Reader (Recorded σ)) (l : Bytes) (r' : Reader (Recorded σ)) : Prop :=
  ∃ x, r'.source.delivered = r.source.delivered ++ x ∧ r.window ++ x = l ++ r'.window

theorem Flows.refl (r : Reader (Recorded σ)) : Flows r [] r :=
  ⟨[], (List.append_nil _).symm, List.append_nil _⟩

theorem Flows.trans {r r' r'' : Reader (Recorded σ)} {l m : Bytes} (h : Flows r l r')
    (h' : Flows r' m r'') : Flows r (l ++ m) r'' := by
  obtain ⟨x, hx, hl⟩ := h
  obtain ⟨y, hy, hm⟩ := h'
  refine ⟨x ++ y, ?_, ?_⟩
  · rw [hy, hx, List.append_assoc]
  · calc r.window ++ (x ++ y) = l ++ (r'.window ++ y) := by
          rw [← List.append_assoc, hl, List.append_assoc]
      _ = l ++ m ++ r''.window := by rw [hm, List.append_assoc]

variable {r : Reader (Recorded σ)} {max scanned n : Nat} {l rest : Bytes}

/-- What stands in front is handed out. -/
theorem flows_drop (hw : r.window = l ++ rest) (k : Nat) :
    Flows r l { r with window := rest, head := k } :=
  ⟨[], (List.append_nil _).symm, (List.append_nil _).trans hw⟩

/-- Handing nothing out keeps the window in front of what came. -/
theorem Flows.window_eq {r' : Reader (Recorded σ)} (h : Flows r [] r') :
    ∃ x, r'.window = r.window ++ x ∧ r'.source.delivered = r.source.delivered ++ x := by
  obtain ⟨x, hx, hl⟩ := h
  exact ⟨x, hl.symm, hx⟩

variable [Source σ]

/-- What a read brings comes in behind the window. -/
theorem flows_fill {x : Except IoError Bytes} {r' : Reader (Recorded σ)} (hf : r.fill = (x, r')) :
    Flows r [] r' := by
  unfold fill at hf
  split at hf
  all_goals
    rename_i hfetch
    cases hf
    have hdelivered := Recorded.delivered_fetch hfetch
    rw [source_makeRoom] at hdelivered
    exact ⟨_, hdelivered, by simp [SourceRead.bytes]⟩

theorem flows_readByte (r : Reader (Recorded σ)) :
    Flows r (Answer.byte r.readByte.1).handed r.readByte.2 := by
  unfold readByte
  split
  · rename_i c l hw
    exact flows_drop (l := [c]) hw _
  · rename_i hw
    split
    · rename_i c l r' hf
      have hw' := window_fill_ok hf
      rw [hw, List.nil_append] at hw'
      exact (flows_fill hf).trans (flows_drop (l := [c]) hw' _)
    · rename_i hf
      exact flows_fill hf
    · rename_i hf
      split <;> exact flows_fill hf

theorem flows_scanLine (r : Reader (Recorded σ)) (max scanned : Nat) :
    Flows r (Answer.line (r.scanLine max scanned).1).handed (r.scanLine max scanned).2 := by
  fun_induction scanLine r max scanned with
  | case1 r => exact Flows.refl r
  | case2 r scanned pre post hsplit line hshort =>
    refine flows_drop ?_ _
    rw [Answer.handed, List.append_assoc, List.append_assoc, List.singleton_append,
      ← (splitAtByte?_eq_some hsplit).1, List.take_append_drop]
  | case3 r => exact Flows.refl r
  | case4 r scanned hsplit hshort e r' hf => exact flows_fill hf
  | case5 r scanned hsplit hshort r' hf hw => exact flows_fill hf
  | case6 r scanned hsplit hshort r' hf hw => exact flows_fill hf
  | case7 r scanned hsplit hshort c l r' hf ih => exact (flows_fill hf).trans ih

theorem flows_readExact (r : Reader (Recorded σ)) (n : Nat)
    (h : (Answer.exact (r.readExact n).1).isCut = false) :
    Flows r (Answer.exact (r.readExact n).1).handed (r.readExact n).2 := by
  rcases Nat.lt_or_ge r.window.length n with hn | hn
  · rw [readExact_of_short hn] at h ⊢
    rcases hread : Source.readExact r.source (n - r.window.length) with ⟨e | x, s⟩
    · rw [hread] at h
      cases h
    · exact ⟨x, Recorded.delivered_readExact hread, (List.append_nil _).symm⟩
  · rw [readExact_of_buffered hn]
    exact flows_drop (List.take_append_drop n r.window).symm _

/-- No call but a stretch that is cut off loses anything. -/
theorem flows_answer (r : Reader (Recorded σ)) (c : Call) (h : (r.answer c).1.isCut = false) :
    Flows r (r.answer c).1.handed (r.answer c).2 := by
  cases c with
  | byte => exact flows_readByte r
  | line max => exact flows_scanLine r max 0
  | exact n => exact flows_readExact r n h

/-- What no call loses, a run of calls does not lose. -/
theorem flows_answerEach (r : Reader (Recorded σ)) (cs : List Call)
    (h : ∀ a ∈ (r.answerEach cs).1, a.isCut = false) :
    Flows r ((r.answerEach cs).1.flatMap Answer.handed) (r.answerEach cs).2 := by
  induction cs generalizing r with
  | nil => exact Flows.refl r
  | cons c cs ih =>
    have hfirst := flows_answer r c (h _ List.mem_cons_self)
    exact hfirst.trans (ih _ fun a ha => h a (List.mem_cons_of_mem _ ha))

end Reader

namespace BufferReader

open Reader (Call Answer)

variable [Source σ]

/-- If every stretch is handed out whole, what was handed out and what stands between the cursors
is what the source has given, in its order. Whatever is asked for next is answered, and a byte or
a line that is not there takes nothing away : the cells between the cursors are kept, with what
came behind them. -/
theorem handed_append_window (capacity : Nat) (s : σ) (calls : List Call)
    (hwhole : ∀ a ∈ ((Reader.withCapacity capacity s).answerEach calls).1, a.isCut = false) :
    ∃ answers b, (withCapacity capacity ({ source := s } : Recorded σ)).answerEach? calls =
        some (answers, b) ∧
      (Reader.withCapacity capacity s).answerEach calls = (answers, b.reader.unrecorded) ∧
      answers.flatMap Answer.handed ++ b.window = b.source.delivered ∧
      ∀ c, ∃ a b', b.answer? c = some (a, b') ∧ (a.isRefusal = true → a.handed = [] ∧
        ∃ x, b'.window = b.window ++ x ∧ b'.source.delivered = b.source.delivered ++ x) := by
  have hsame : (Reader.withCapacity capacity s).answerEach calls = _ :=
    Reader.answerEach_unrecorded
      (Reader.withCapacity capacity ({ source := s } : Recorded σ)) calls
  obtain ⟨b, hanswers, hb, hreader⟩ :=
    answerEach?_agrees (inOrder_withCapacity capacity ({ source := s } : Recorded σ)) calls
  rw [reader_withCapacity] at hanswers hreader
  refine ⟨_, b, hanswers, ?_, ?_, ?_⟩
  · rw [hreader]
    exact hsame
  · rw [hsame] at hwhole
    obtain ⟨x, hx, hflow⟩ := Reader.flows_answerEach _ calls hwhole
    rw [← hreader] at hx hflow
    exact hflow.symm.trans hx.symm
  · intro c
    obtain ⟨b', hanswer, -, hreader'⟩ := answer?_agrees hb c
    refine ⟨_, b', hanswer, fun hrefused => ⟨Answer.handed_of_isRefusal hrefused, ?_⟩⟩
    have hflow := Reader.flows_answer _ c (Answer.isCut_of_isRefusal hrefused)
    rw [Answer.handed_of_isRefusal hrefused, ← hreader'] at hflow
    exact hflow.window_eq

/-- A line is asked for in vain, comes when it is asked for again, and what comes behind it is
handed out byte by byte and in a stretch. -/
theorem handed_append_window_silentSource :
    (∀ a ∈ ((Reader.withCapacity 1 silentSource).answerEach
      [.line 30, .line 30, .exact 1, .byte]).1, a.isCut = false) ∧
    ∃ answers b, (withCapacity 1 ({ source := silentSource } : Recorded _)).answerEach?
        [.line 30, .line 30, .exact 1, .byte] = some (answers, b) ∧
      answers.map Answer.handed = [[], utf8 "a line of more bytes than 16\n", utf8 "!", []] ∧
      answers.flatMap Answer.handed ++ b.window = b.source.delivered := by
  have hwhole : ∀ a ∈ ((Reader.withCapacity 1 silentSource).answerEach
      [.line 30, .line 30, .exact 1, .byte]).1, a.isCut = false := by
    decide +kernel
  obtain ⟨answers, b, hrun, hreader, hbalance, -⟩ :=
    handed_append_window 1 silentSource _ hwhole
  have hanswers : answers = _ := (congrArg Prod.fst hreader).symm
  refine ⟨hwhole, answers, b, hrun, ?_, hbalance⟩
  rw [hanswers]
  decide +kernel

end BufferReader

end HttpServer
