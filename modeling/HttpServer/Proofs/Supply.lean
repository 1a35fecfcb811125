import HttpServer.Stream.Reader

/-!
# What a reader hands out before its source stops

A source chooses the pieces in which its bytes come and the interruptions between them, and at
some point it stops : it ends, or it fails. A reader adds the moments at which its buffer makes
room. Up to the stop, none of this shows in what the reader hands out.

`Source.IsSupply` describes sources that give the bytes related to them and then stop in a given
way. A reader in front of such a source holds its window followed by the bytes still to come
(`Reader.Holds`), hands out the lines, stretches and bytes of what it holds, and meets the stop
where they run out (`Reader.readLine_of_supply`, `Reader.readExact_of_le`,
`Reader.readExact_of_lt`, `Reader.readByte_of_cons`, `Reader.readByte_of_nil`).
-/

namespace HttpServer

/-! ## Sources that stop -/

namespace Source

variable {σ : Type} {P : σ → Bytes → Prop} {Q : σ → Prop} {stop : Option IoKind}

/-- What a read that is not interrupted comes to when these bytes are left before the stop. -/
inductive Supplied (P : σ → Bytes → Prop) (Q : σ → Prop) (stop : Option IoKind) (l : Bytes) :
    Except IoError Bytes × σ → Prop where
  /-- The next bytes come. -/
  | piece {x rest : Bytes} {s : σ} : l = x ++ rest → x ≠ [] → P s rest →
    Supplied P Q stop l (.ok x, s)
  /-- There is nothing more, and that is the end. -/
  | ended {s : σ} : l = [] → stop = none → Q s → Supplied P Q stop l (.ok [], s)
  /-- There is nothing more, and the read fails. -/
  | failed {err : IoError} {s : σ} : l = [] → stop = some err.kind → err.kind ≠ .interrupted →
    Q s → Supplied P Q stop l (.error err, s)

/-- What a read comes to then. -/
inductive SuppliedRead (P : σ → Bytes → Prop) (Q : σ → Prop) (stop : Option IoKind) (l : Bytes) :
    Except IoError Bytes × σ → Prop where
  /-- The read is interrupted and loses nothing. -/
  | interrupted {err : IoError} {s : σ} : err.kind = .interrupted → P s l →
    SuppliedRead P Q stop l (.error err, s)
  | supplied {x : Except IoError Bytes × σ} : Supplied P Q stop l x → SuppliedRead P Q stop l x

/-- A source gives exactly the bytes that `P` relates it to, in pieces of any size and with
interruptions between them. Then it ends, if there is no kind of failure, or fails in that way.
Afterwards it satisfies `Q`. -/
def IsSupply [Source σ] (P : σ → Bytes → Prop) (Q : σ → Prop) (stop : Option IoKind) : Prop :=
  ∀ s l n, P s l → 0 < n → SuppliedRead P Q stop l (read s n)

variable [Source σ] {s : σ} {l : Bytes} {n : Nat}

/-- Interruptions do not show in a read that is repeated. -/
theorem IsSupply.fetch (hP : IsSupply P Q stop) (h : P s l) (hn : 0 < n) :
    Supplied P Q stop l (fetch s n) := by
  fun_induction Source.fetch s n with
  | case1 s x s' hr =>
    have hread := hP s l n h hn
    rw [hr] at hread
    cases hread with
    | supplied hs => exact hs
  | case2 s e s' hr hk ih =>
    have hread := hP s l n h hn
    rw [hr] at hread
    cases hread with
    | interrupted _ hs => exact ih hs
    | supplied hs =>
      cases hs with
      | failed _ _ hne => exact absurd hk hne
  | case3 s e s' hr hk =>
    have hread := hP s l n h hn
    rw [hr] at hread
    cases hread with
    | interrupted hk' => exact absurd hk' hk
    | supplied hs => exact hs

/-- A stretch that comes before the stop is read. -/
theorem IsSupply.readExact_of_le (hP : IsSupply P Q stop) (h : P s l) (hn : n ≤ l.length) :
    ∃ s', readExact s n = (.ok (l.take n), s') ∧ P s' (l.drop n) := by
  fun_induction readExact s n generalizing l with
  | case1 s => exact ⟨s, by simp, by simpa using h⟩
  | case2 s n h0 e s' hf =>
    have hfetch := hP.fetch h (Nat.pos_of_ne_zero h0)
    rw [hf] at hfetch
    cases hfetch with
    | failed hl =>
      subst hl
      exact absurd (Nat.le_zero.1 hn) h0
  | case3 s n h0 s' hf =>
    have hfetch := hP.fetch h (Nat.pos_of_ne_zero h0)
    rw [hf] at hfetch
    cases hfetch with
    | piece _ hx => exact absurd rfl hx
    | ended hl =>
      subst hl
      exact absurd (Nat.le_zero.1 hn) h0
  | case4 s n h0 b x s' hf y s'' hr ih =>
    have hfetch := hP.fetch h (Nat.pos_of_ne_zero h0)
    have hle := fetch_length_le hf
    rw [hf] at hfetch
    cases hfetch with
    | piece hl _ hs =>
      subst hl
      simp only [List.length_append, List.length_cons] at hn hle
      obtain ⟨s2, hr', hs'⟩ := ih hs (by omega)
      cases hr.symm.trans hr'
      refine ⟨s'', ?_, ?_⟩
      · rw [List.take_append, List.take_of_length_le (i := n) (by simpa using hle),
          List.length_cons]
      · rwa [List.drop_append, List.drop_eq_nil_of_le (by simpa using hle), List.length_cons]
  | case5 s n h0 b x s' hf e s'' hr ih =>
    have hfetch := hP.fetch h (Nat.pos_of_ne_zero h0)
    rw [hf] at hfetch
    cases hfetch with
    | piece hl _ hs =>
      subst hl
      simp only [List.length_append, List.length_cons] at hn
      obtain ⟨s2, hr', -⟩ := ih hs (by omega)
      simp [hr] at hr'

/-- A stretch that is cut off by the stop is not read. -/
theorem IsSupply.readExact_of_lt (hP : IsSupply P Q stop) (h : P s l) (hn : l.length < n) :
    ∃ e s', readExact s n = (.error e, s') := by
  fun_induction readExact s n generalizing l with
  | case1 s => simp at hn
  | case2 s n h0 e s' hf => exact ⟨e, s', rfl⟩
  | case3 s n h0 s' hf => exact ⟨_, s', rfl⟩
  | case4 s n h0 b x s' hf y s'' hr ih =>
    have hfetch := hP.fetch h (Nat.pos_of_ne_zero h0)
    rw [hf] at hfetch
    cases hfetch with
    | piece hl _ hs =>
      subst hl
      simp only [List.length_append, List.length_cons] at hn
      obtain ⟨e, s2, hr'⟩ := ih hs (by omega)
      simp [hr] at hr'
  | case5 s n h0 b x s' hf e s'' hr ih => exact ⟨e, s'', rfl⟩

end Source

namespace Reader

variable {σ : Type} {P : σ → Bytes → Prop} {Q : σ → Prop} {stop : Option IoKind} {r : Reader σ}
  {l : Bytes} {b : UInt8}

/-! ## Readers in front of them -/

/-- The reader has these bytes to hand out before the stop, in a buffer that can take more. -/
structure Holds (P : σ → Bytes → Prop) (r : Reader σ) (l : Bytes) : Prop where
  size_pos : 0 < r.size
  tail_le : r.tail ≤ r.size
  bytes : ∃ rest, l = r.window ++ rest ∧ P r.source rest

theorem holds_withCapacity {s : σ} (capacity : Nat) (h : P s l) :
    (withCapacity capacity s).Holds P l where
  size_pos := by simp only [withCapacity]; omega
  tail_le := by simp [withCapacity, tail]
  bytes := ⟨l, rfl, h⟩

theorem Holds.mono {P' : σ → Bytes → Prop} (h : r.Holds P l) (hP : ∀ s l, P s l → P' s l) :
    r.Holds P' l :=
  ⟨h.size_pos, h.tail_le, h.bytes.imp fun _ hs => ⟨hs.1, hP _ _ hs.2⟩⟩

/-- There is always room for the next read. -/
theorem room_makeRoom_pos (h : r.Holds P l) : 0 < r.makeRoom.room := by
  have h1 := h.size_pos
  have h2 := h.tail_le
  unfold makeRoom
  split
  · rename_i hw
    simpa [room, tail, hw] using h1
  · split
    · split <;> simp only [room, tail] at * <;> omega
    · simp only [room, tail] at *
      omega

theorem tail_makeRoom_le (h : r.tail ≤ r.size) : r.makeRoom.tail ≤ r.makeRoom.size := by
  unfold makeRoom
  split
  · rename_i hw
    simp [tail, hw]
  · split
    · split <;> simp only [tail] at * <;> omega
    · exact h

theorem size_le_makeRoom (r : Reader σ) : r.size ≤ r.makeRoom.size := by
  unfold makeRoom
  split
  · exact Nat.le_refl _
  · split
    · split
      · exact Nat.le_refl _
      · exact Nat.le_mul_of_pos_right _ (by decide)
    · exact Nat.le_refl _

/-- The source has stopped with nothing left. -/
def After (Q : σ → Prop) (s : σ) (l : Bytes) : Prop := l = [] ∧ Q s

variable [Source σ]

/-- A read into the buffer brings the next bytes, or the stop where none are left. -/
theorem fill_of_supply (hP : Source.IsSupply P Q stop) (h : r.Holds P l) :
    (∃ x r', r.fill = (.ok x, r') ∧ x ≠ [] ∧ r'.window = r.window ++ x ∧ r'.Holds P l) ∨
      l = r.window ∧ ∃ x r', r.fill = (x, r') ∧ r'.window = r.window ∧ r'.Holds (After Q) l ∧
        (stop = none ∧ x = .ok [] ∨ ∃ err, stop = some err.kind ∧ x = .error err) := by
  obtain ⟨rest, rfl, hs⟩ := h.bytes
  rw [← source_makeRoom] at hs
  have hroom := room_makeRoom_pos h
  have htail := tail_makeRoom_le h.tail_le
  have hpos : 0 < r.makeRoom.size := Nat.lt_of_lt_of_le h.size_pos (size_le_makeRoom r)
  have hfetch := hP.fetch hs hroom
  unfold fill
  generalize hf : Source.fetch r.makeRoom.source r.makeRoom.room = x at hfetch
  cases hfetch with
  | @piece x rest s hl hx hs' =>
    subst hl
    have hle := Source.fetch_length_le hf
    refine .inl ⟨x, _, rfl, hx, by simp, hpos, ?_, rest, by simp, hs'⟩
    simp only [room, tail, window_makeRoom, List.length_append] at *
    omega
  | ended hl hstop hs' =>
    subst hl
    refine .inr ⟨by simp, _, _, rfl, by simp, ⟨hpos, ?_, [], by simp, rfl, hs'⟩, .inl ⟨hstop, rfl⟩⟩
    simpa [tail] using htail
  | @failed err _ hl hstop _ hs' =>
    subst hl
    exact .inr ⟨by simp, _, _, rfl, by simp, ⟨hpos, htail, [], by simp, rfl, hs'⟩,
      .inr ⟨err, hstop, rfl⟩⟩

/-! ## Lines -/

omit [Source σ] in
/-- A window without a line end in its first `scanned` bytes is cut at its first line end. -/
theorem window_eq_of_splitAtByte? {pre post : Bytes} {scanned : Nat}
    (h : splitAtByte? lf (r.window.drop scanned) = some (pre, post))
    (hw : lf ∉ r.window.take scanned) :
    r.window = (r.window.take scanned ++ pre) ++ lf :: post ∧
      lf ∉ r.window.take scanned ++ pre := by
  obtain ⟨h1, h2⟩ := splitAtByte?_eq_some h
  refine ⟨?_, by simp [hw, h2]⟩
  rw [List.append_assoc, ← h1, List.take_append_drop]

omit [Source σ] in
theorem not_mem_window_of_splitAtByte? {scanned : Nat}
    (h : splitAtByte? lf (r.window.drop scanned) = none) (hw : lf ∉ r.window.take scanned) :
    lf ∉ r.window := by
  rw [← List.take_append_drop scanned r.window, List.mem_append, not_or]
  exact ⟨hw, splitAtByte?_eq_none.1 h⟩

omit [Source σ] in
/-- A line that is handed out leaves the bytes behind it. -/
theorem Holds.drop_line {pre post : Bytes} (h : r.Holds P l)
    (hw : r.window = pre ++ lf :: post) :
    ∃ rest, l = pre ++ lf :: rest ∧ Holds P
      { r with window := post, head := r.head + (pre.length + 1) } rest := by
  obtain ⟨rest, rfl, hs⟩ := h.bytes
  have htail := h.tail_le
  refine ⟨post ++ rest, by simp [hw], h.size_pos, ?_, rest, rfl, hs⟩
  simp only [tail, hw, List.length_append, List.length_cons] at htail ⊢
  omega

/-- What comes of asking for the next line of at most `max` bytes. -/
inductive LineRead (P : σ → Bytes → Prop) (Q : σ → Prop) (stop : Option IoKind) (max : Nat) :
    Bytes → Except IoError (Option Bytes) × Reader σ → Prop where
  /-- The line ends in time. -/
  | line {pre post : Bytes} {r : Reader σ} : lf ∉ pre → pre.length < max → r.Holds P post →
    LineRead P Q stop max (pre ++ lf :: post) (.ok (some (pre ++ [lf])), r)
  /-- The line goes on beyond `max` bytes. -/
  | overlong {l : Bytes} {r : Reader σ} : max < l.length → lf ∉ l.take max → r.Holds P l →
    LineRead P Q stop max l (.error { kind := .invalidData }, r)
  /-- The source ends, and there is no further line. -/
  | ended {r : Reader σ} : stop = none → r.Holds (After Q) [] →
    LineRead P Q stop max [] (.ok none, r)
  /-- The source ends inside the line. -/
  | cut {l : Bytes} {r : Reader σ} : stop = none → l ≠ [] → l.length ≤ max → lf ∉ l →
    r.Holds (After Q) l → LineRead P Q stop max l (.error { kind := .unexpectedEof }, r)
  /-- The source fails before the line ends. -/
  | failed {l : Bytes} {err : IoError} {r : Reader σ} : stop = some err.kind → l.length ≤ max →
    lf ∉ l → LineRead P Q stop max l (.error err, r)

theorem scanLine_of_supply (hP : Source.IsSupply P Q stop) {max scanned : Nat} (h : r.Holds P l)
    (hscan : lf ∉ r.window.take scanned) : LineRead P Q stop max l (r.scanLine max scanned) := by
  fun_induction scanLine r max scanned with
  | case1 r scanned a b hs line hlong =>
    obtain ⟨hw, ha⟩ := window_eq_of_splitAtByte? hs hscan
    obtain ⟨rest, rfl, -⟩ := h.drop_line hw
    simp only [line] at hlong
    generalize r.window.take scanned ++ a = pre at *
    rw [List.length_append, List.length_singleton] at hlong
    refine .overlong ?_ ?_ h
    · simp only [List.length_append, List.length_cons]
      omega
    · rw [List.take_append_of_le_length (by omega)]
      exact fun hm => ha (List.mem_of_mem_take hm)
  | case2 r scanned a b hs line hshort =>
    obtain ⟨hw, ha⟩ := window_eq_of_splitAtByte? hs hscan
    obtain ⟨rest, rfl, hr⟩ := h.drop_line hw
    simp only [line] at hshort ⊢
    generalize r.window.take scanned ++ a = pre at *
    rw [List.length_append, List.length_singleton] at hshort ⊢
    exact .line ha (by omega) hr
  | case3 r scanned hs hlong =>
    have hw := not_mem_window_of_splitAtByte? hs hscan
    obtain ⟨rest, rfl, -⟩ := h.bytes
    refine .overlong (by simp; omega) ?_ h
    rw [List.take_append_of_le_length (Nat.le_of_lt hlong)]
    exact fun hm => hw (List.mem_of_mem_take hm)
  | case4 r scanned hs hshort e r' hf =>
    have hw := not_mem_window_of_splitAtByte? hs hscan
    rcases fill_of_supply hP h with ⟨x, r'', hf', -⟩ | ⟨rfl, x, r'', hf', -, -, hx⟩
    · cases hf.symm.trans hf'
    · cases hf.symm.trans hf'
      rcases hx with ⟨-, hx⟩ | ⟨err, hstop, hx⟩
      · cases hx
      · cases hx
        exact .failed hstop (Nat.le_of_not_lt hshort) hw
  | case5 r scanned hs hshort r' hf hw =>
    rcases fill_of_supply hP h with ⟨x, r'', hf', hx, -⟩ | ⟨rfl, x, r'', hf', hwin, hr, hx⟩
    · cases hf.symm.trans hf'
      exact absurd rfl hx
    · cases hf.symm.trans hf'
      rcases hx with ⟨hstop, -⟩ | ⟨err, -, hx⟩
      · rw [← hwin, hw] at hr ⊢
        exact .ended hstop hr
      · cases hx
  | case6 r scanned hs hshort r' hf hw =>
    rcases fill_of_supply hP h with ⟨x, r'', hf', hx, -⟩ | ⟨rfl, x, r'', hf', hwin, hr, hx⟩
    · cases hf.symm.trans hf'
      exact absurd rfl hx
    · cases hf.symm.trans hf'
      rcases hx with ⟨hstop, -⟩ | ⟨err, -, hx⟩
      · exact .cut hstop (hwin ▸ hw) (Nat.le_of_not_lt hshort)
          (not_mem_window_of_splitAtByte? hs hscan) hr
      · cases hx
  | case7 r scanned hs hshort b x r' hf ih =>
    rcases fill_of_supply hP h with ⟨y, r'', hf', -, hwin, hr⟩ | ⟨rfl, y, r'', hf', -, -, hy⟩
    · cases hf.symm.trans hf'
      refine ih hr ?_
      rw [hwin, List.take_append_of_le_length (Nat.le_refl _), List.take_length]
      exact not_mem_window_of_splitAtByte? hs hscan
    · cases hf.symm.trans hf'
      rcases hy with ⟨-, hy⟩ | ⟨err, -, hy⟩ <;> cases hy

/-- A request for a line is answered by the bytes that are held, however they come, and by the
stop where they run out. -/
theorem readLine_of_supply (hP : Source.IsSupply P Q stop) (h : r.Holds P l) (max : Nat) :
    LineRead P Q stop max l (r.readLine max) :=
  scanLine_of_supply hP h (by simp)

/-- A line that ends in time is handed out, and what follows it is left. -/
theorem readLine_of_line (hP : Source.IsSupply P Q stop) {pre post : Bytes} {max : Nat}
    (hl : lf ∉ pre) (hlen : pre.length < max) (h : r.Holds P (pre ++ lf :: post)) :
    ∃ r', r.readLine max = (.ok (some (pre ++ [lf])), r') ∧ r'.Holds P post := by
  have hread := readLine_of_supply hP h max
  generalize hl' : pre ++ lf :: post = l at hread
  generalize r.readLine max = x at hread
  cases hread with
  | @line pre' post' r' hpre' hlen' hr' =>
    have hcut := congrArg (splitAtByte? lf) hl'
    rw [splitAtByte?_append hl, splitAtByte?_append hpre'] at hcut
    cases hcut
    exact ⟨r', rfl, hr'⟩
  | overlong _ hno =>
    have hmem : lf ∈ (pre ++ lf :: post).take max := by
      obtain ⟨k, rfl⟩ := Nat.exists_eq_add_of_lt hlen
      rw [Nat.add_assoc, List.take_length_add_append, List.take_succ_cons]
      simp
    exact absurd (hl' ▸ hmem) hno
  | ended => simp at hl'
  | cut _ _ _ hno => exact absurd (hl' ▸ by simp) hno
  | failed _ _ hno => exact absurd (hl' ▸ by simp) hno

/-! ## Bodies -/

/-- A stretch that is there is handed out. -/
theorem readExact_of_le (hP : Source.IsSupply P Q stop) (h : r.Holds P l) {n : Nat}
    (hn : n ≤ l.length) :
    ∃ r', r.readExact n = (.ok (l.take n), r') ∧ r'.Holds P (l.drop n) := by
  obtain ⟨rest, rfl, hs⟩ := h.bytes
  have hpos := h.size_pos
  have htail := h.tail_le
  simp only [tail] at htail
  by_cases hw : n ≤ r.window.length
  · have hr : r.readExact n = (.ok (r.window.take n),
        { r with window := r.window.drop n, head := r.head + (r.window.take n).length }) := by
      rw [readExact, if_pos (by rw [List.length_take]; omega)]
    rw [List.take_append_of_le_length hw, List.drop_append_of_le_length hw]
    refine ⟨_, hr, hpos, ?_, rest, rfl, hs⟩
    simp only [tail, List.length_take, List.length_drop]
    omega
  · have hlen : (r.window.take n).length = r.window.length := by
      rw [List.length_take]
      omega
    rw [List.length_append] at hn
    obtain ⟨s', hr', hs'⟩ := hP.readExact_of_le (n := n - r.window.length) hs (by omega)
    have hr : r.readExact n = (.ok (r.window.take n ++ rest.take (n - r.window.length)),
        { r with source := s', window := r.window.drop n, head := r.head + r.window.length }) := by
      rw [readExact, if_neg (by rw [hlen]; omega)]
      simp only [hlen, hr']
    rw [List.take_append, List.drop_append]
    refine ⟨_, hr, hpos, ?_, _, rfl, hs'⟩
    simp only [tail, List.length_drop]
    omega

/-- A stretch that is not all there is refused. -/
theorem readExact_of_lt (hP : Source.IsSupply P Q stop) (h : r.Holds P l) {n : Nat}
    (hn : l.length < n) : ∃ e r', r.readExact n = (.error e, r') := by
  obtain ⟨rest, rfl, hs⟩ := h.bytes
  rw [List.length_append] at hn
  have hlen : (r.window.take n).length = r.window.length := by
    rw [List.length_take]
    omega
  obtain ⟨e, s', hr⟩ := hP.readExact_of_lt (n := n - r.window.length) hs (by omega)
  unfold readExact
  rw [if_neg (by rw [hlen]; omega)]
  simp only [hlen, hr]
  exact ⟨_, _, rfl⟩

/-! ## Single bytes -/

/-- What a read of one byte gives at the stop. -/
def ByteRead.ofStop : Option IoKind → ByteRead
  | none => .eof
  | some kind => if kind = .wouldBlock then .wouldBlock else .error kind

/-- The reader has nothing to hand out before something arrives. -/
structure Idle (r : Reader σ) : Prop where
  size_pos : 0 < r.size
  tail_le : r.tail ≤ r.size
  window_eq : r.window = []

omit [Source σ] in
/-- Whatever the source supplies next is what the reader holds. -/
theorem Idle.holds (h : r.Idle) {s : σ} (hs : P s l) : Holds P { r with source := s } l :=
  ⟨h.size_pos, h.tail_le, l, by simp [h.window_eq], hs⟩

/-- A byte that is there is handed out. -/
theorem readByte_of_cons (hP : Source.IsSupply P Q stop) (h : r.Holds P (b :: l)) :
    ∃ r', r.readByte = (.byte b, r') ∧ r'.Holds P l := by
  obtain ⟨rest, hl, hs⟩ := h.bytes
  have hsize := h.size_pos
  have htail := h.tail_le
  unfold readByte
  rcases hw : r.window with _ | ⟨c, w⟩
  · rcases fill_of_supply hP h with ⟨x, r', hf, hx, hwin, hr⟩ | ⟨hnil, -⟩
    · rw [hw, List.nil_append] at hwin
      obtain ⟨rest', hl', hs'⟩ := hr.bytes
      rw [hwin] at hl'
      obtain ⟨c, x, rfl⟩ := List.exists_cons_of_ne_nil hx
      obtain ⟨rfl, rfl⟩ := List.cons.inj hl'
      have htail' := hr.tail_le
      rw [hf]
      refine ⟨_, rfl, hr.size_pos, ?_, rest', rfl, hs'⟩
      simp only [tail, hwin, List.length_cons] at htail' ⊢
      omega
    · rw [hw] at hnil
      cases hnil
  · rw [hw, List.cons_append] at hl
    obtain ⟨rfl, rfl⟩ := List.cons.inj hl
    refine ⟨_, rfl, hsize, ?_, rest, rfl, hs⟩
    simp only [tail, hw, List.length_cons] at htail ⊢
    omega

/-- After the last byte comes the stop. -/
theorem readByte_of_nil (hP : Source.IsSupply P Q stop) (h : r.Holds P []) :
    ∃ r', r.readByte = (.ofStop stop, r') ∧ r'.Idle := by
  unfold readByte
  rcases fill_of_supply hP h with ⟨x, r', hf, hx, hwin, hr⟩ | ⟨hw, x, r', hf, hwin, hr, hx⟩
  · obtain ⟨rest', hl', -⟩ := hr.bytes
    rw [hwin] at hl'
    simp [hx] at hl'
  · rw [← hw] at hwin
    have hidle : r'.Idle := ⟨hr.size_pos, hr.tail_le, hwin⟩
    rw [← hw, hf]
    rcases hx with ⟨rfl, rfl⟩ | ⟨err, rfl, rfl⟩
    · exact ⟨r', rfl, hidle⟩
    · exact ⟨r', rfl, hidle⟩

end Reader

end HttpServer
