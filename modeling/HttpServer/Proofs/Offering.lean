import HttpServer.Proofs.Segmentation
import HttpServer.Stream

/-!
# What a stream gives at the moment

A stream that never waits gives the bytes that have arrived, in pieces of any size and with
interruptions between them. Then it stops : it ends, or it fails, be it only because there is
nothing yet. `Stream.supply` tells the bytes and the stop of every stream, and that is what its
reads come to (`Stream.isSupply`).

A stream that either ends or has nothing yet offers its bytes (`Source.Offered`).
`Stream.Offers` says so for each kind of stream. What is offered is supplied
(`Stream.supply_of_offers`), and what is offered up to the end is delivered
(`Source.IsOffer.isDelivery`).
-/

namespace HttpServer

/-! ## What comes before the stop -/

theorem Source.SuppliedRead.map {σ τ : Type} {P : σ → Bytes → Prop} {Q : τ → Bytes → Prop}
    {P' : σ → Prop} {Q' : τ → Prop} {stop : Option IoKind} {l : Bytes}
    {x : Except IoError Bytes × σ} (f : σ → τ) (hf : ∀ s l, P s l → Q (f s) l)
    (hf' : ∀ s, P' s → Q' (f s)) (h : SuppliedRead P P' stop l x) :
    SuppliedRead Q Q' stop l (x.1, f x.2) := by
  cases h with
  | interrupted hk hs => exact .interrupted hk (hf _ _ hs)
  | supplied h =>
    cases h with
    | piece hl hx hs => exact .supplied (.piece hl hx (hf _ _ hs))
    | ended hl hstop hs => exact .supplied (.ended hl hstop (hf' _ hs))
    | failed hl hstop hne hs => exact .supplied (.failed hl hstop hne (hf' _ hs))

namespace MemoryStream

/-- What a stream in memory gives, and how it stops then. -/
def supply (m : MemoryStream) : Bytes × Option IoKind :=
  if m.closed then ([], some .notConnected)
  else (m.input, if m.finished then none else some .wouldBlock)

theorem isSupply (stop : Option IoKind) :
    Source.IsSupply (fun m l => supply m = (l, stop)) (fun _ => True) stop := by
  intro m l n h hn
  refine .supplied ?_
  change Source.Supplied _ _ _ _ (m.read n)
  rw [read]
  split_ifs with hc hl hf
  · rw [supply, if_pos hc] at h
    cases h
    exact .failed rfl rfl (by decide) trivial
  · rw [supply, if_neg hc, if_pos hf] at h
    cases h
    exact .ended hl rfl trivial
  · rw [supply, if_neg hc, if_neg hf] at h
    cases h
    exact .failed hl rfl (by decide) trivial
  · rw [supply, if_neg hc] at h
    cases h
    refine .piece (List.take_append_drop n m.input).symm (by simp [hl]; omega) ?_
    rw [supply, if_neg hc]

end MemoryStream

namespace Socket

/-- What a socket gives, and how it stops then. -/
def supply (s : Socket) : Bytes × Option IoKind :=
  if s.closed then ([], some .notConnected)
  else (s.incoming, if s.peerEnded ∨ s.peerGone then none else some .wouldBlock)

theorem isSupply (stop : Option IoKind) :
    Source.IsSupply (fun s l => supply s = (l, stop)) (fun _ => True) stop := by
  intro s l n h hn
  change Source.SuppliedRead _ _ _ _ (s.read n)
  rw [read]
  by_cases hc : s.closed = true
  · rw [supply, if_pos hc] at h
    cases h
    rw [if_pos hc]
    exact .supplied (.failed rfl rfl (by decide) trivial)
  rw [if_neg hc]
  split
  · exact .interrupted rfl h
  rw [supply, if_neg hc] at h
  refine .supplied ?_
  split_ifs with hl he
  · rw [if_pos he] at h
    cases h
    exact .ended hl rfl trivial
  · rw [if_neg he] at h
    cases h
    exact .failed hl rfl (by decide) trivial
  · cases h
    refine .piece (List.take_append_drop _ s.incoming).symm ?_ ?_
    · split <;> simp [hl] <;> omega
    · rw [supply, if_neg hc]

end Socket

namespace ScriptSource

/-- What arrivals bring before a call that fails for good or brings nothing, and how they stop
there. -/
def supplyOf : List Arrival → Bytes × Option IoKind
  | [] => ([], none)
  | .chunk d :: rest => if d = [] then ([], none) else (d ++ (supplyOf rest).1, (supplyOf rest).2)
  | .failure k :: rest => if k = .interrupted then supplyOf rest else ([], some k)

/-- What a script gives, and how it stops then. -/
def supply (s : ScriptSource) : Bytes × Option IoKind :=
  if s.closed then ([], some .notConnected) else supplyOf s.arrivals

theorem isSupply (stop : Option IoKind) :
    Source.IsSupply (fun s l => supply s = (l, stop)) (fun _ => True) stop := by
  intro s l n h hn
  change Source.SuppliedRead _ _ _ _ (s.read n)
  rw [read]
  by_cases hc : s.closed = true
  · rw [supply, if_pos hc] at h
    cases h
    rw [if_pos hc]
    exact .supplied (.failed rfl rfl (by decide) trivial)
  rw [if_neg hc]
  have hsupply (a : List Arrival) : supply { s with arrivals := a } = supplyOf a := if_neg hc
  rw [supply, if_neg hc] at h
  rcases ha : s.arrivals with _ | ⟨d | k, rest⟩
  · rw [ha] at h
    cases h
    exact .supplied (.ended rfl rfl trivial)
  · rw [ha, supplyOf] at h
    refine .supplied ?_
    rw [readList]
    split_ifs at h with hd
    · cases h
      subst hd
      exact .ended rfl rfl trivial
    cases h
    split_ifs with hle
    · exact .piece rfl hd (hsupply rest)
    · have hdrop : d.drop n ≠ [] := List.ne_nil_of_length_pos (by rw [List.length_drop]; omega)
      have hsplit : d ++ (supplyOf rest).1 = d.take n ++ (d.drop n ++ (supplyOf rest).1) := by
        rw [← List.append_assoc, List.take_append_drop]
      refine .piece hsplit ?_ ?_
      · simpa [hd] using Nat.pos_iff_ne_zero.1 hn
      · rw [hsupply, supplyOf, if_neg hdrop]
  · rw [ha, supplyOf] at h
    split_ifs at h with hk
    · exact .interrupted hk ((hsupply rest).trans h)
    · cases h
      exact .supplied (.failed rfl rfl hk trivial)

end ScriptSource

namespace Stream

/-- What a stream gives before it stops, and how it stops. It may fail, end, or have nothing yet,
and an empty read counts as an end. -/
def supply : Stream → Bytes × Option IoKind
  | memory m => m.supply
  | script a _ _ => a.supply
  | socket t => t.supply

theorem isSupply (stop : Option IoKind) :
    Source.IsSupply (fun s l => supply s = (l, stop)) (fun _ => True) stop := by
  intro s l n h hn
  cases s with
  | memory m =>
    exact (MemoryStream.isSupply stop m l n h hn).map memory (fun _ _ h => h) fun _ h => h
  | script a b c =>
    exact (ScriptSource.isSupply stop a l n h hn).map (script · b c) (fun _ _ h => h) fun _ h => h
  | socket t => exact (Socket.isSupply stop t l n h hn).map socket (fun _ _ h => h) fun _ h => h

end Stream

/-! ## What is there at the moment -/

namespace Source

variable {σ τ : Type} {P : σ → Bytes → Bool → Prop} {Q : τ → Bytes → Bool → Prop} {l : Bytes}
  {ended : Bool}

/-- What a read can come to when these bytes are offered, and the end after them if there is
one. -/
inductive Offered (P : σ → Bytes → Bool → Prop) (l : Bytes) (ended : Bool) :
    Except IoError Bytes × σ → Prop where
  /-- The next bytes come. -/
  | piece {x rest : Bytes} {s : σ} : l = x ++ rest → x ≠ [] → P s rest ended →
    Offered P l ended (.ok x, s)
  /-- There is nothing more, and that is the end. -/
  | ended {s : σ} : l = [] → ended = true → P s [] true → Offered P l ended (.ok [], s)
  /-- The read is interrupted and loses nothing. -/
  | interrupted {err : IoError} {s : σ} : err.kind = .interrupted → P s l ended →
    Offered P l ended (.error err, s)
  /-- There is nothing more yet. -/
  | wouldBlock {err : IoError} {s : σ} : err.kind = .wouldBlock → l = [] → ended = false →
    Offered P l ended (.error err, s)

theorem Offered.map {x : Except IoError Bytes × σ} (f : σ → τ)
    (hf : ∀ s l e, P s l e → Q (f s) l e) (h : Offered P l ended x) :
    Offered Q l ended (x.1, f x.2) := by
  cases h with
  | piece hl hx hs => exact .piece hl hx (hf _ _ _ hs)
  | ended hl he hs => exact .ended hl he (hf _ _ _ hs)
  | interrupted hk hs => exact .interrupted hk (hf _ _ _ hs)
  | wouldBlock hk hl he => exact .wouldBlock hk hl he

/-- A source gives what `P` says, in pieces of any size and with interruptions between
them. -/
def IsOffer [Source σ] (P : σ → Bytes → Bool → Prop) : Prop :=
  ∀ s l ended n, P s l ended → 0 < n → Offered P l ended (read s n)

variable [Source σ]

/-- What is offered up to the end is delivered. -/
theorem IsOffer.isDelivery (hP : IsOffer P) : IsDelivery fun s l => P s l true where
  ok {s s' l x n} h hn hr := by
    have hread := hP s l true n h hn
    rw [hr] at hread
    cases hread with
    | piece hl hx hs => exact ⟨_, hl, hs, fun h0 => absurd h0 hx⟩
    | ended hl _ hs => exact ⟨[], by simp [hl], hs, fun _ => hl⟩
  error {s s' l n e} h hn hr := by
    have hread := hP s l true n h hn
    rw [hr] at hread
    cases hread with
    | interrupted hk hs => exact ⟨hk, hs⟩
    | wouldBlock _ _ he => cases he

end Source

/-- A stream in memory offers its input. -/
def MemoryStream.Offers (m : MemoryStream) (l : Bytes) (ended : Bool) : Prop :=
  m.input = l ∧ m.finished = ended ∧ m.closed = false

theorem MemoryStream.isOffer : Source.IsOffer MemoryStream.Offers := by
  rintro s l ended n ⟨rfl, rfl, hc⟩ hn
  change Source.Offered _ _ _ (s.read n)
  rw [read, if_neg (by simp [hc])]
  split
  · rename_i hl
    split
    · rename_i he
      exact .ended hl he ⟨hl, he, hc⟩
    · exact .wouldBlock rfl hl (eq_false_of_ne_true ‹¬s.finished = true›)
  · rename_i hl
    exact .piece (List.take_append_drop n s.input).symm (by simp [hl]; omega) ⟨rfl, rfl, hc⟩

/-- A socket offers what has arrived. It has ended when the peer sends no more. -/
def Socket.Offers (s : Socket) (l : Bytes) (ended : Bool) : Prop :=
  s.incoming = l ∧ (s.peerEnded ∨ s.peerGone ↔ ended = true) ∧ s.closed = false

theorem Socket.isOffer : Source.IsOffer Socket.Offers := by
  rintro s l ended n ⟨rfl, he, hc⟩ hn
  change Source.Offered _ _ _ (s.read n)
  rw [read, if_neg (by simp [hc])]
  split
  · exact .interrupted rfl ⟨rfl, he, hc⟩
  · split
    · rename_i hl
      split
      · exact .ended hl (he.1 ‹_›) ⟨hl, by simpa using ‹_›, hc⟩
      · exact .wouldBlock rfl hl (by simpa using mt he.2 ‹_›)
    · rename_i hl
      refine .piece (List.take_append_drop _ s.incoming).symm ?_ ⟨rfl, he, hc⟩
      split <;> simp [hl] <;> omega

/-- A script offers what comes before the next call that would block, or before the end. -/
def ScriptSource.Offers (s : ScriptSource) (l : Bytes) (ended : Bool) : Prop :=
  s.closed = false ∧ ∃ a later, s.arrivals = a ++ later ∧ (∀ x ∈ a, Passing x) ∧ bytes a = l ∧
    if ended then later = [] else later.head? = some (.failure .wouldBlock)

theorem ScriptSource.isOffer : Source.IsOffer ScriptSource.Offers := by
  rintro ⟨arrivals, closed⟩ l ended n ⟨rfl, a, later, rfl, hp, rfl, he⟩ hn
  change Source.Offered _ _ _ (ScriptSource.read _ n)
  rw [read, if_neg (by simp)]
  by_cases hne : a = []
  · subst hne
    cases ended with
    | true =>
      obtain rfl : later = [] := he
      exact .ended rfl rfl ⟨rfl, [], [], rfl, by simp, rfl, rfl⟩
    | false =>
      obtain ⟨t, rfl⟩ := List.head?_eq_some_iff.1 he
      exact .wouldBlock rfl rfl rfl
  · obtain ⟨x, a', hr, hp', hx⟩ := readList_of_passing hp hne hn later
    simp only [hr]
    rcases hx with ⟨rfl, hbytes⟩ | ⟨y, rfl, hy, hbytes⟩
    · exact .interrupted rfl ⟨rfl, a', later, rfl, hp', hbytes.symm, he⟩
    · exact .piece hbytes hy ⟨rfl, a', later, rfl, hp', rfl, he⟩

/-- A stream is open and gives these bytes at the moment. What comes after them is the end,
or nothing yet. -/
def Stream.Offers : Stream → Bytes → Bool → Prop
  | memory m => m.Offers
  | script a _ _ => a.Offers
  | socket t => t.Offers

theorem Stream.isOffer : Source.IsOffer Stream.Offers := by
  intro s l ended n h hn
  cases s with
  | memory m => exact (MemoryStream.isOffer m l ended n h hn).map memory fun _ _ _ h => h
  | script a b c =>
    exact (ScriptSource.isOffer a l ended n h hn).map (script · b c) fun _ _ _ h => h
  | socket t => exact (Socket.isOffer t l ended n h hn).map socket fun _ _ _ h => h

/-! ## What is offered is supplied -/

theorem MemoryStream.supply_of_offers {m : MemoryStream} {l : Bytes} {ended : Bool}
    (h : m.Offers l ended) : m.supply = (l, if ended then none else some .wouldBlock) := by
  obtain ⟨rfl, rfl, hc⟩ := h
  rw [supply, hc]
  rfl

theorem Socket.supply_of_offers {s : Socket} {l : Bytes} {ended : Bool} (h : s.Offers l ended) :
    s.supply = (l, if ended then none else some .wouldBlock) := by
  obtain ⟨rfl, he, hc⟩ := h
  simp only [supply, hc, he]
  rfl

theorem ScriptSource.supplyOf_append {a : List Arrival} (ha : ∀ x ∈ a, Passing x)
    (later : List Arrival) :
    supplyOf (a ++ later) = (bytes a ++ (supplyOf later).1, (supplyOf later).2) := by
  induction a with
  | nil => rfl
  | cons x a ih =>
    obtain ⟨hx, hrest⟩ := List.forall_mem_cons.1 ha
    rcases hx with rfl | ⟨d, hd, rfl⟩
    · exact ih hrest
    · rw [List.cons_append, supplyOf, if_neg hd, ih hrest]
      simp [bytes]

theorem ScriptSource.supply_of_offers {s : ScriptSource} {l : Bytes} {ended : Bool}
    (h : s.Offers l ended) : s.supply = (l, if ended then none else some .wouldBlock) := by
  obtain ⟨hc, a, later, ha, hp, rfl, he⟩ := h
  rw [supply, hc, ha]
  cases ended with
  | true =>
    obtain rfl : later = [] := he
    exact (supplyOf_append hp []).trans (by simp [supplyOf])
  | false =>
    obtain ⟨t, rfl⟩ := List.head?_eq_some_iff.1 he
    exact (supplyOf_append hp _).trans (by simp [supplyOf])

theorem Stream.supply_of_offers {s : Stream} {l : Bytes} {ended : Bool} (h : s.Offers l ended) :
    s.supply = (l, if ended then none else some .wouldBlock) := by
  cases s with
  | memory m => exact MemoryStream.supply_of_offers h
  | script a b c => exact ScriptSource.supply_of_offers h
  | socket t => exact Socket.supply_of_offers h

end HttpServer
