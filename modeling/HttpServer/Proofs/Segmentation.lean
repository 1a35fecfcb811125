import HttpServer.Proofs.Recognition
import HttpServer.Stream.Script
import Mathlib.Tactic.SplitIfs

/-!
# The pieces do not show

Two sources that deliver the same bytes may cut them into different pieces, and the readers
in front of them may have buffers of different sizes. A parser that takes lines does not see
the difference : it gives the same answer, and a request that it takes uses up the same bytes
(`LineParser.parse_eq_of_delivers`).

The proof runs both parsers side by side. `Reader.Alike` relates two readers that have the
same bytes yet to hand out, and every operation of the parser answers alike and keeps the
relation as long as it succeeds (`LineParser.Follows`). One of the two sources may fail where
the other one ends ; both then answer alike, too, unless the failure is one of those that stand
for a line that is too long (`LineParser.BlamedAs`).

The sources that follow a script of pieces and interruptions are an instance
(`ScriptSource.isDelivery`).
-/

namespace HttpServer

/-! ## Scripts of pieces and interruptions -/

namespace ScriptSource

/-- The bytes that arrivals bring. -/
def bytes (a : List Arrival) : Bytes :=
  a.flatMap fun
    | .chunk d => d
    | .failure _ => []

/-- A call that brings something or is interrupted. -/
def Passing (a : Arrival) : Prop := a = .failure .interrupted ∨ ∃ d, d ≠ [] ∧ a = .chunk d

/-- One read from arrivals that are not over. Only those that were not read are left, and
whatever follows them. -/
theorem readList_of_passing {a : List Arrival} {n : Nat} (hp : ∀ x ∈ a, Passing x)
    (hne : a ≠ []) (hn : 0 < n) (later : List Arrival) :
    ∃ x a', readList (a ++ later) n = (x, a' ++ later) ∧ (∀ y ∈ a', Passing y) ∧
      (x = .error { kind := .interrupted } ∧ bytes a = bytes a' ∨
        ∃ l, x = .ok l ∧ l ≠ [] ∧ bytes a = l ++ bytes a') := by
  obtain ⟨y, rest, rfl⟩ := List.exists_cons_of_ne_nil hne
  obtain ⟨hy, hrest⟩ := List.forall_mem_cons.1 hp
  rcases hy with rfl | ⟨d, hd, rfl⟩
  · exact ⟨_, rest, rfl, hrest, .inl ⟨rfl, rfl⟩⟩
  rw [List.cons_append, readList]
  by_cases hle : d.length ≤ n
  · rw [if_pos hle]
    exact ⟨_, rest, rfl, hrest, .inr ⟨d, rfl, hd, rfl⟩⟩
  · have hdrop : d.drop n ≠ [] := List.ne_nil_of_length_pos (by rw [List.length_drop]; omega)
    rw [if_neg hle]
    refine ⟨_, .chunk (d.drop n) :: rest, rfl, ?_, .inr ⟨d.take n, rfl, ?_, ?_⟩⟩
    · exact List.forall_mem_cons.2 ⟨.inr ⟨_, hdrop, rfl⟩, hrest⟩
    · simpa [hd] using Nat.pos_iff_ne_zero.1 hn
    · simp only [bytes, List.flatMap_cons]
      rw [← List.append_assoc, List.take_append_drop]

/-- A script is open and brings these bytes, in pieces that are not empty and with
interruptions between them. -/
structure Delivers (s : ScriptSource) (l : Bytes) : Prop where
  not_closed : s.closed = false
  passing : ∀ a ∈ s.arrivals, Passing a
  bytes_eq : bytes s.arrivals = l

/-- A script of this kind is over, or gives something, or is interrupted. -/
theorem Delivers.read {s : ScriptSource} {l : Bytes} {n : Nat} (h : s.Delivers l) (hn : 0 < n) :
    l = [] ∧ s.read n = (.ok [], s) ∨ ∃ x s' rest, s.read n = (x, s') ∧ s'.Delivers rest ∧
      (x = .error { kind := .interrupted } ∧ l = rest ∨
        ∃ y, x = .ok y ∧ y ≠ [] ∧ l = y ++ rest) := by
  obtain ⟨hc, hp, rfl⟩ := h
  obtain ⟨a, c⟩ := s
  obtain rfl : c = false := hc
  rw [ScriptSource.read, if_neg (by simp)]
  by_cases hne : a = []
  · subst hne
    exact .inl ⟨rfl, rfl⟩
  · obtain ⟨x, a', hr, hp', hx⟩ := readList_of_passing hp hne hn []
    rw [List.append_nil, List.append_nil] at hr
    simp only [hr]
    exact .inr ⟨x, _, _, rfl, ⟨rfl, hp', rfl⟩, hx⟩

theorem isDelivery : Source.IsDelivery Delivers where
  ok {s s' l x n} h hn hr := by
    change s.read n = _ at hr
    rcases h.read hn with ⟨rfl, h0⟩ | ⟨y, s'', rest, hy, hs, ⟨rfl, -⟩ | ⟨d, rfl, hd, rfl⟩⟩
    · cases hr.symm.trans h0
      exact ⟨[], rfl, h, fun _ => rfl⟩
    · cases hr.symm.trans hy
    · cases hr.symm.trans hy
      exact ⟨rest, rfl, hs, fun h0 => absurd h0 hd⟩
  error {s s' l n e} h hn hr := by
    change s.read n = _ at hr
    rcases h.read hn with ⟨rfl, h0⟩ | ⟨y, s'', rest, hy, hs, ⟨rfl, rfl⟩ | ⟨d, rfl, hd, rfl⟩⟩
    · cases hr.symm.trans h0
    · cases hr.symm.trans hy
      exact ⟨rfl, hs⟩
    · cases hr.symm.trans hy

end ScriptSource

/-! ## What is left is determined -/

namespace Source

variable {σ : Type} [Source σ] {P : σ → Bytes → Prop}

/-- A source delivers only one stretch of bytes. -/
theorem IsDelivery.unique (hP : IsDelivery P) {s : σ} {l l' : Bytes} (h : P s l) (h' : P s l') :
    l = l' := by
  induction hn : remaining s using Nat.strongRecOn generalizing s l l' with
  | ind n ih =>
    subst hn
    rcases hr : read s 1 with ⟨e | x, s'⟩
    · obtain ⟨hk, hs⟩ := hP.error h Nat.one_pos hr
      exact ih _ (remaining_interrupted hr hk) hs (hP.error h' Nat.one_pos hr).2 rfl
    · obtain ⟨rest, rfl, hs, hx⟩ := hP.ok h Nat.one_pos hr
      obtain ⟨rest', rfl, hs', hx'⟩ := hP.ok h' Nat.one_pos hr
      rcases List.eq_nil_or_concat x with rfl | ⟨y, b, rfl⟩
      · rw [hx rfl, hx' rfl]
      · have hlt := remaining_ok hr
        rw [List.length_concat] at hlt
        rw [ih _ (by omega) hs hs' rfl]

end Source

namespace Reader

variable {σ τ : Type} {P : σ → Bytes → Prop} {Q : τ → Bytes → Prop} {raw l l' : Bytes}

theorem Holds.unique [Source σ] (hP : Source.IsDelivery P) {r : Reader σ} (h : r.Holds P l)
    (h' : r.Holds P l') : l = l' := by
  obtain ⟨rest, rfl, hs⟩ := h.bytes
  obtain ⟨rest', rfl, hs'⟩ := h'.bytes
  rw [hP.unique hs hs']

/-- Two readers have the same bytes yet to hand out, the last ones of `raw`. -/
def Alike (P : σ → Bytes → Prop) (Q : τ → Bytes → Prop) (raw : Bytes) (r : Reader σ)
    (r' : Reader τ) : Prop :=
  ∃ l, l <:+ raw ∧ r.Holds P l ∧ r'.Holds Q l

/-! ## Lines -/

variable {max : Nat} {x y : Except IoError (Option Bytes)} {rest rest' : Bytes}

theorem NextLine.suffix (h : NextLine max l x rest) : rest <:+ l := by
  cases h with
  | @line pre post => exact ⟨pre ++ [lf], by simp⟩
  | overlong | ended | cut => exact List.suffix_rfl

/-- What comes of asking for a line is determined by the bytes. -/
theorem NextLine.unique (h : NextLine max l x rest) (h' : NextLine max l y rest') :
    x = y ∧ rest = rest' := by
  have hmem {pre post : Bytes} (hlen : pre.length < max) : lf ∈ (pre ++ lf :: post).take max := by
    obtain ⟨k, rfl⟩ := Nat.exists_eq_add_of_lt hlen
    simp [List.take_append, Nat.add_assoc]
  cases h with
  | @line pre _ hl hlen =>
    generalize hl' : pre ++ lf :: rest = l at h'
    cases h' with
    | line hpre' =>
      have hcut := congrArg (splitAtByte? lf) hl'
      rw [splitAtByte?_append hl, splitAtByte?_append hpre'] at hcut
      cases hcut
      exact ⟨rfl, rfl⟩
    | overlong _ hno => exact absurd (hl' ▸ hmem hlen) hno
    | ended => simp at hl'
    | cut _ _ hno => exact absurd (hl' ▸ by simp) hno
  | overlong hlong hl =>
    cases h' with
    | line _ hlen => exact absurd (hmem hlen) hl
    | overlong => exact ⟨rfl, rfl⟩
    | ended => simp at hlong
    | cut _ hle _ => exact absurd hlong (Nat.not_lt.2 hle)
  | ended =>
    generalize hl' : ([] : Bytes) = l at h'
    cases h' <;> simp_all
  | cut hne hle hl =>
    cases h' with
    | line => simp at hl
    | overlong hlong => exact absurd hlong (Nat.not_lt.2 hle)
    | ended => exact absurd rfl hne
    | cut => exact ⟨rfl, rfl⟩

end Reader

/-! ## Both parsers side by side -/

namespace LineParser

open Reader

variable {σ τ α : Type} [Source σ] [Source τ] {P : σ → Bytes → Prop} {Q : τ → Bytes → Prop}
  {P' : σ → Prop} {stop : Option IoKind} {raw : Bytes} {r : Reader σ} {r' : Reader τ}
  {p : LineParser} {q : Request}

/-- The error of a run whose source stops in this way, for the error of a run whose source
ends. -/
inductive BlamedAs (stop : Option IoKind) : ParseError → ParseError → Prop where
  /-- The stop does not show. -/
  | same (e : ParseError) : BlamedAs stop e e
  /-- A source that fails in the middle of a line with the kind of error that stands for a line
  that is too long makes the line look too long. -/
  | garbled (s : ParseState) : stop = some .invalidData → BlamedAs stop (.atState s) .read

/-- A run over a source that stops in some way follows a run over the same bytes that then
end : if they succeed, it is with the same result, and their readers are still alike. -/
inductive Follows (stop : Option IoKind) (P : σ → Bytes → Prop) (Q : τ → Bytes → Prop)
    (raw : Bytes) : Except ParseError α × Reader σ → Except ParseError α × Reader τ → Prop where
  | ok {r : Reader σ} {r' : Reader τ} (a : α) : Alike P Q raw r r' →
    Follows stop P Q raw (.ok a, r) (.ok a, r')
  | error {e e' : ParseError} {r : Reader σ} {r' : Reader τ} : BlamedAs stop e e' →
    Follows stop P Q raw (.error e, r) (.error e', r')

theorem nextLine_follows (hP : Source.IsSupply P P' stop) (hQ : Source.IsDelivery Q)
    (h : Alike P Q raw r r') (s : ParseState) :
    Follows stop P Q raw (p.nextLine r s) (p.nextLine r' s) := by
  obtain ⟨l, hl, hr, hr'⟩ := h
  have hread := readLine_of_supply hP hr p.limits.lineCap
  obtain ⟨y, rest, r₁', hline', hnext', hr₁'⟩ := r'.readLine_of_holds hQ hr' p.limits.lineCap
  unfold nextLine
  rw [hline']
  generalize r.readLine p.limits.lineCap = x at hread
  cases hread with
  | @line pre post _ hno hlen hr₁ =>
    have hnext : NextLine p.limits.lineCap (pre ++ lf :: post) _ post := .line hno hlen
    obtain ⟨rfl, rfl⟩ := hnext.unique hnext'
    exact .ok _ ⟨_, hnext.suffix.trans hl, hr₁, hr₁'⟩
  | overlong hlen hno =>
    obtain ⟨rfl, rfl⟩ := (NextLine.overlong hlen hno).unique hnext'
    exact .error (.same _)
  | ended =>
    obtain ⟨rfl, rfl⟩ := NextLine.ended.unique hnext'
    exact .error (.same _)
  | cut _ hne hlen hno =>
    obtain ⟨rfl, rfl⟩ := (NextLine.cut hne hlen hno).unique hnext'
    exact .error (.same _)
  | @failed _ err _ hstop hlen hno =>
    -- The other run comes to the end of the bytes where this one fails.
    have hend : y = .ok none ∨ y = .error { kind := .unexpectedEof } := by
      by_cases hne : l = []
      · subst hne
        exact .inl (NextLine.ended.unique hnext').1.symm
      · exact .inr ((NextLine.cut hne hlen hno).unique hnext').1.symm
    have hblame : BlamedAs stop (if err.kind = .invalidData then .atState s else .read) .read := by
      split_ifs with hk
      · exact .garbled s (hk ▸ hstop)
      · exact .same _
    rcases hend with rfl | rfl
    · exact .error hblame
    · exact .error hblame

theorem headers_follows (hP : Source.IsSupply P P' stop) (hQ : Source.IsDelivery Q)
    (h : Alike P Q raw r r') : Follows stop P Q raw (p.headers r q) (p.headers r' q) := by
  induction hn : r.remaining using Nat.strongRecOn generalizing r r' q with
  | ind n ih =>
    subst hn
    rw [headers_eq, headers_eq]
    have hline := nextLine_follows (p := p) hP hQ h .headerValue
    generalize hx : p.nextLine r .headerValue = x at hline
    generalize p.nextLine r' .headerValue = y at hline
    cases hline with
    | error he => exact .error he
    | ok line halike =>
      dsimp only
      split_ifs
      · exact .ok q halike
      · exact .error (.same _)
      · cases headerLine q line with
        | error e => exact .error (.same e)
        | ok q' => exact ih _ (remaining_nextLine hx) halike rfl

theorem head_follows (hP : Source.IsSupply P P' stop) (hQ : Source.IsDelivery Q)
    (h : Alike P Q raw r r') : Follows stop P Q raw (p.head r) (p.head r') := by
  unfold head
  have hline := nextLine_follows (p := p) hP hQ h .path
  generalize p.nextLine r .path = x at hline
  generalize p.nextLine r' .path = y at hline
  cases hline with
  | error he => exact .error he
  | ok line h₁ =>
    dsimp only
    cases startLine line with
    | error e => exact .error (.same e)
    | ok q => exact headers_follows hP hQ h₁

theorem body_follows (hP : Source.IsSupply P P' stop) (hQ : Source.IsDelivery Q)
    (h : Alike P Q raw r r') : Follows stop P Q raw (p.body r q) (p.body r' q) := by
  obtain ⟨l, hl, hr, hr'⟩ := h
  unfold body
  split_ifs
  · exact .error (.same _)
  · exact .ok q ⟨l, hl, hr, hr'⟩
  by_cases hn : q.contentLength ≤ l.length
  · obtain ⟨r₁, hrun, hr₁⟩ := r.readExact_of_le hP hr hn
    obtain ⟨r₁', hrun', hr₁'⟩ := r'.readExact_of_le hQ.isSupply hr' hn
    rw [hrun, hrun']
    exact .ok _ ⟨_, (List.drop_suffix _ _).trans hl, hr₁, hr₁'⟩
  · obtain ⟨e, r₁, hrun⟩ := r.readExact_of_lt hP hr (Nat.lt_of_not_le hn)
    obtain ⟨e', r₁', hrun'⟩ := r'.readExact_of_lt hQ.isSupply hr' (Nat.lt_of_not_le hn)
    rw [hrun, hrun']
    exact .error (.same _)

theorem parse_follows (hP : Source.IsSupply P P' stop) (hQ : Source.IsDelivery Q)
    (h : Alike P Q raw r r') : Follows stop P Q raw (p.parse r) (p.parse r') := by
  unfold parse
  have hhead := head_follows (p := p) hP hQ h
  generalize p.head r = x at hhead
  generalize p.head r' = y at hhead
  cases hhead with
  | error he => exact .error he
  | ok q h₁ => exact body_follows hP hQ h₁

/-- Two runs give the same answer, and if they succeed, their readers are still alike. -/
structure SameAnswer (P : σ → Bytes → Prop) (Q : τ → Bytes → Prop) (raw : Bytes)
    (x : Except ParseError α × Reader σ) (y : Except ParseError α × Reader τ) : Prop where
  answer : x.1 = y.1
  left : ∀ a, x.1 = .ok a → Alike P Q raw x.2 y.2

/-- Where both sources end, the answers are the same. -/
theorem parse_sameAnswer (hP : Source.IsDelivery P) (hQ : Source.IsDelivery Q)
    (h : Alike P Q raw r r') : SameAnswer P Q raw (p.parse r) (p.parse r') := by
  have hparse := parse_follows (p := p) hP.isSupply hQ h
  generalize p.parse r = x at hparse
  generalize p.parse r' = y at hparse
  cases hparse with
  | ok a halike => exact ⟨rfl, fun _ _ => halike⟩
  | error he =>
    cases he with
    | same e => exact ⟨rfl, fun _ h0 => by cases h0⟩
    | garbled _ hstop => cases hstop

/-- The answer depends on the bytes alone, and so does what a request uses up of them :
neither the kind of the source matters, nor the pieces it gives and the interruptions between
them, nor the size of the buffer. -/
theorem parse_eq_of_delivers (limits : Limits) {s : σ} {t : τ} (hP : Source.IsDelivery P)
    (hQ : Source.IsDelivery Q) (hs : P s raw) (ht : Q t raw) (c d : Nat) :
    let x := (LineParser.mk limits).parse (Reader.withCapacity c s)
    let y := (LineParser.mk limits).parse (Reader.withCapacity d t)
    x.1 = y.1 ∧ ∀ q, x.1 = .ok q → ∃ used rest, raw = used ++ rest ∧
      (∀ l, x.2.Holds P l ↔ l = rest) ∧ ∀ l, y.2.Holds Q l ↔ l = rest := by
  intro x y
  have hxy : SameAnswer P Q raw x y := parse_sameAnswer hP hQ
    ⟨raw, List.suffix_rfl, holds_withCapacity c hs, holds_withCapacity d ht⟩
  refine ⟨hxy.answer, fun q hq => ?_⟩
  obtain ⟨rest, ⟨used, rfl⟩, hx, hy⟩ := hxy.left q hq
  exact ⟨used, rest, rfl, fun l => ⟨fun h => h.unique hP hx, fun h => h ▸ hx⟩,
    fun l => ⟨fun h => h.unique hQ hy, fun h => h ▸ hy⟩⟩

/-- A request in pieces that cut its line ends, with interruptions, and the start of another
one. -/
def pieces : ScriptSource where
  arrivals := [.chunk (utf8 "GE"), .failure .interrupted, .chunk (utf8 "T / HTTP/1.1\r"),
    .chunk (utf8 "\n\r"), .failure .interrupted, .failure .interrupted, .chunk (utf8 "\nGET")]

/-- The pieces are read like the same bytes in memory, by a reader with another buffer. -/
theorem parse_eq_of_delivers_pieces :
    let x := (LineParser.mk {}).parse (Reader.withCapacity 0 pieces)
    let y := (LineParser.mk {}).parse
      (Reader.withCapacity 4096 (MemoryStream.ofInput (utf8 "GET / HTTP/1.1\r\n\r\nGET")))
    (∃ q, x.1 = .ok q ∧ y.1 = .ok q) ∧
      ∃ used rest, utf8 "GET / HTTP/1.1\r\n\r\nGET" = used ++ rest ∧
        (∀ l, x.2.Holds ScriptSource.Delivers l ↔ l = rest) ∧
        ∀ l, y.2.Holds MemoryStream.Delivers l ↔ l = rest := by
  intro x y
  have hpieces : pieces.Delivers (utf8 "GET / HTTP/1.1\r\n\r\nGET") :=
    ⟨rfl, by simp [pieces, ScriptSource.Passing]; decide, by decide⟩
  obtain ⟨hsame, hleft⟩ := parse_eq_of_delivers {} ScriptSource.isDelivery
    MemoryStream.isDelivery hpieces (MemoryStream.delivers_ofInput _) 0 4096
  have hfits : (Message.mk .get [slash] [] []).Fits {} :=
    ⟨⟨by decide, ⟨rfl, List.all_eq_true.1 (by decide)⟩, by simp, by decide, by simp⟩, rfl,
      by decide⟩
  have hholds : Holds MemoryStream.Delivers
      (Reader.withCapacity 4096 (MemoryStream.ofInput (utf8 "GET / HTTP/1.1\r\n\r\nGET")))
      ((Message.mk .get [slash] [] []).render ++ utf8 "GET") :=
    holds_withCapacity 4096 (MemoryStream.delivers_ofInput _)
  obtain ⟨y', hy, -⟩ := parse_render MemoryStream.isDelivery hfits hholds
  have hx : x.1 = .ok _ := hsame.trans (congrArg Prod.fst hy)
  exact ⟨⟨_, hx, congrArg Prod.fst hy⟩, hleft _ hx⟩

end LineParser

end HttpServer
