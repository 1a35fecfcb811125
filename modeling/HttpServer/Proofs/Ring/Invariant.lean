import HttpServer.Proofs.Ring.Laps

/-!
# What every action on a ring keeps

`Ring.Consistent` ties the ring to its history : the cursors count the entries of the logs,
every slot is at one of its positions (`Ring.Laps`), and a call that is to claim a position
has read a cursor that is not behind that position, and has seen the slot announce it if the
cursor still stands there (`Ring.Fresh`). So a claim that succeeds finds the slot at the
position.

An action that changes the ring is one of six : a put claims a position, stores its value or
hands the slot on, or a take claims a position, fetches the value or hands the slot on. Each
keeps the invariant (`Ring.Consistent.act`), and so does every run with fewer than `2 ^ 63`
calls (`Ring.consistent_run`).
-/

namespace HttpServer.Ring

variable {α : Type}

/-! ## Calls that are about to claim -/

/-- A call that is about to claim a position knows that the position has not passed the
cursor, and what the slot announced as long as the cursor stands there. -/
def Fresh (r : Ring α) : Call α → Prop
  | .push _ (.position pos) => pos.toNat ≤ r.enqueued.toNat
  | .push _ (.ready pos) =>
    pos.toNat ≤ r.enqueued.toNat ∧ (pos = r.enqueued → r.sequence pos = pos)
  | .pop (.position pos) => pos.toNat ≤ r.dequeued.toNat
  | .pop (.ready pos) =>
    pos.toNat ≤ r.dequeued.toNat ∧ (pos = r.dequeued → r.sequence pos = pos + 1)
  | _ => True

/-- A cursor that goes on, and slots that announce other positions, do not matter. -/
theorem Fresh.mono {r r' : Ring α} {c : Call α} (h : Fresh r c)
    (henq : r.enqueued.toNat ≤ r'.enqueued.toNat) (hdeq : r.dequeued.toNat ≤ r'.dequeued.toNat)
    (hput : r'.enqueued = r.enqueued → r.sequence r.enqueued = r.enqueued →
      r'.sequence r.enqueued = r.enqueued)
    (htake : r'.dequeued = r.dequeued → r.sequence r.dequeued = r.dequeued + 1 →
      r'.sequence r.dequeued = r.dequeued + 1) : Fresh r' c := by
  have hsame {a b c : UInt64} (hab : a.toNat ≤ b.toNat) (hbc : b.toNat ≤ c.toNat) (h : a = c) :
      a = b ∧ c = b := by
    subst h
    have hba := UInt64.toNat_inj.1 (Nat.le_antisymm hab hbc)
    exact ⟨hba, hba⟩
  unfold Fresh at h ⊢
  split at h
  · exact Nat.le_trans h henq
  · refine ⟨Nat.le_trans h.1 henq, fun hpos => ?_⟩
    obtain ⟨rfl, hr⟩ := hsame h.1 henq hpos
    exact hput hr (h.2 rfl)
  · exact Nat.le_trans h hdeq
  · refine ⟨Nat.le_trans h.1 hdeq, fun hpos => ?_⟩
    obtain ⟨rfl, hr⟩ := hsame h.1 hdeq hpos
    exact htake hr (h.2 rfl)
  · trivial

/-! ## The invariant -/

/-- The ring is what its history makes it. -/
structure Consistent (h : History α) : Prop where
  logged : h.Logged
  sized : h.ring.IsSized
  enqueued : h.ring.enqueued = .ofNat h.puts.length
  dequeued : h.ring.dequeued = .ofNat h.takes.length
  laps : Laps h.ring h.putAt h.takeAt
  fresh : ∀ c ∈ h.calls, Fresh h.ring c

namespace Consistent

variable {h : History α} {c c' : Call α} {i k : Nat} {v : α} {pos : UInt64} {unlucky : Bool}
  {r' : Ring α}

/-- The slot of a put that is under way is at its position. -/
theorem lap_of_put (hC : Consistent h) (hi : h.calls[i]? = some c) (hp : c.hasPut = true)
    (hc : ∀ v, c ≠ .push v (.ended true)) :
    ∃ k s, h.puts[k]? = some i ∧ h.putAt k = some c ∧
      h.ring.slots[k % h.ring.capacity]? = some s ∧
      Lap h.ring.capacity h.putAt h.takeAt k s := by
  obtain ⟨k, hk, hput⟩ := hC.logged.puts.exists_look hi hp
  rw [← History.putAt] at hput
  rcases hC.laps.finished_or_lap hC.sized (.inl (by rw [hput]; simp)) with hf | ⟨s, hs, hlap⟩
  · obtain ⟨v, hv, -⟩ := hf
    exact absurd (Option.some.inj (hput.symm.trans hv)) (hc v)
  · exact ⟨k, s, hk, hput, hs, hlap⟩

theorem lap_of_take (hC : Consistent h) (hi : h.calls[i]? = some c) (hp : c.hasTaken = true)
    (hc : ∀ v?, c ≠ .pop (.ended v?)) :
    ∃ k s, h.takes[k]? = some i ∧ h.takeAt k = some c ∧
      h.ring.slots[k % h.ring.capacity]? = some s ∧
      Lap h.ring.capacity h.putAt h.takeAt k s := by
  obtain ⟨k, hk, htake⟩ := hC.logged.takes.exists_look hi hp
  rw [← History.takeAt] at htake
  rcases hC.laps.finished_or_lap hC.sized (.inr (by rw [htake]; simp)) with hf | ⟨s, hs, hlap⟩
  · obtain ⟨v, -, hv⟩ := hf
    exact absurd (Option.some.inj (htake.symm.trans hv)) (hc _)
  · exact ⟨k, s, hk, htake, hs, hlap⟩

theorem toNat_enqueued (hC : Consistent h) (hlen : h.calls.length < 2 ^ 63) :
    h.ring.enqueued.toNat = h.puts.length := by
  have := hC.logged.puts.length_le
  rw [hC.enqueued, UInt64.toNat_ofNat_of_lt' (show _ < 2 ^ 64 by omega)]

theorem toNat_dequeued (hC : Consistent h) (hlen : h.calls.length < 2 ^ 63) :
    h.ring.dequeued.toNat = h.takes.length := by
  have := hC.logged.takes.length_le
  rw [hC.dequeued, UInt64.toNat_ofNat_of_lt' (show _ < 2 ^ 64 by omega)]

/-- The numbers of a slot are in no danger of wrapping around. -/
theorem lap_lt (hC : Consistent h) (hlen : h.calls.length < 2 ^ 63) {s : Slot α}
    (hlap : Lap h.ring.capacity h.putAt h.takeAt k s) : k + 1 < 2 ^ 64 := by
  have hlog := hC.logged.puts.length_le
  have hcap := hC.sized.le
  have h2 := hC.sized.two_le
  have := hlap.lt_add (by omega) lt_length_of_look
  omega

theorem index_enqueued (hC : Consistent h) :
    h.ring.index h.ring.enqueued = h.puts.length % h.ring.capacity := by
  rw [hC.enqueued, index_ofNat hC.sized]

theorem index_dequeued (hC : Consistent h) :
    h.ring.index h.ring.dequeued = h.takes.length % h.ring.capacity := by
  rw [hC.dequeued, index_ofNat hC.sized]

theorem enqueued_add_one (hC : Consistent h) :
    h.ring.enqueued + 1 = .ofNat (h.puts.length + 1) := by
  rw [hC.enqueued, UInt64.ofNat_add]
  rfl

theorem dequeued_add_one (hC : Consistent h) :
    h.ring.dequeued + 1 = .ofNat (h.takes.length + 1) := by
  rw [hC.dequeued, UInt64.ofNat_add]
  rfl

theorem toNat_enqueued_add_one (hC : Consistent h) (hlen : h.calls.length < 2 ^ 63) :
    (h.ring.enqueued + 1).toNat = h.puts.length + 1 := by
  have := hC.logged.puts.length_le
  rw [hC.enqueued_add_one, UInt64.toNat_ofNat_of_lt' (show _ < 2 ^ 64 by omega)]

theorem toNat_dequeued_add_one (hC : Consistent h) (hlen : h.calls.length < 2 ^ 63) :
    (h.ring.dequeued + 1).toNat = h.takes.length + 1 := by
  have := hC.logged.takes.length_le
  rw [hC.dequeued_add_one, UInt64.toNat_ofNat_of_lt' (show _ < 2 ^ 64 by omega)]

/-- The slot for a put that is to store its value is free. -/
theorem slot_of_claimed (hC : Consistent h) (hi : h.calls[i]? = some (.push v (.claimed pos))) :
    ∃ k, h.puts[k]? = some i ∧ pos = .ofNat k ∧ h.ring.index pos = k % h.ring.capacity ∧
      h.ring.slots[k % h.ring.capacity]? = some ⟨.ofNat k, none⟩ ∧ h.takeAt k = none ∧
      Lap h.ring.capacity h.putAt h.takeAt k ⟨.ofNat k, none⟩ := by
  obtain ⟨k, s, hk, hput, hs, hlap⟩ := hC.lap_of_put hi rfl (by simp)
  obtain ⟨rfl, htake, rfl⟩ := (hput ▸ hlap.state).of_claimed
  exact ⟨k, hk, rfl, index_ofNat hC.sized _, hs, htake, hlap⟩

/-- The slot for a put that is to hand it on holds the value. -/
theorem slot_of_stored (hC : Consistent h) (hi : h.calls[i]? = some (.push v (.stored pos))) :
    ∃ k, h.puts[k]? = some i ∧ pos = .ofNat k ∧ h.ring.index pos = k % h.ring.capacity ∧
      h.ring.slots[k % h.ring.capacity]? = some ⟨.ofNat k, some v⟩ ∧ h.takeAt k = none ∧
      Lap h.ring.capacity h.putAt h.takeAt k ⟨.ofNat k, some v⟩ := by
  obtain ⟨k, s, hk, hput, hs, hlap⟩ := hC.lap_of_put hi rfl (by simp)
  obtain ⟨rfl, htake, rfl⟩ := (hput ▸ hlap.state).of_stored
  exact ⟨k, hk, rfl, index_ofNat hC.sized _, hs, htake, hlap⟩

/-- The slot for a take that is to fetch the value holds the value of the put, which has
ended. -/
theorem slot_of_taken (hC : Consistent h) (hi : h.calls[i]? = some (.pop (.claimed pos))) :
    ∃ k v, h.takes[k]? = some i ∧ pos = .ofNat k ∧ h.ring.index pos = k % h.ring.capacity ∧
      h.ring.slots[k % h.ring.capacity]? = some ⟨.ofNat (k + 1), some v⟩ ∧
      h.putAt k = some (.push v (.ended true)) ∧
      Lap h.ring.capacity h.putAt h.takeAt k ⟨.ofNat (k + 1), some v⟩ := by
  obtain ⟨k, s, hk, htake, hs, hlap⟩ := hC.lap_of_take hi rfl (by simp)
  obtain ⟨rfl, v, hput, rfl⟩ := (htake ▸ hlap.state).of_taken
  exact ⟨k, v, hk, rfl, index_ofNat hC.sized _, hs, hput, hlap⟩

/-- A take that is to hand the slot on has fetched the value of the put. -/
theorem slot_of_fetched (hC : Consistent h) {v? : Option α}
    (hi : h.calls[i]? = some (.pop (.fetched pos v?))) :
    ∃ k v, h.takes[k]? = some i ∧ pos = .ofNat k ∧ h.ring.index pos = k % h.ring.capacity ∧
      h.ring.slots[k % h.ring.capacity]? = some ⟨.ofNat (k + 1), none⟩ ∧
      h.putAt k = some (.push v (.ended true)) ∧ v? = some v ∧
      Lap h.ring.capacity h.putAt h.takeAt k ⟨.ofNat (k + 1), none⟩ := by
  obtain ⟨k, s, hk, htake, hs, hlap⟩ := hC.lap_of_take hi rfl (by simp)
  obtain ⟨rfl, v, rfl, hput, rfl⟩ := (htake ▸ hlap.state).of_fetched
  exact ⟨k, v, hk, rfl, index_ofNat hC.sized _, hs, hput, rfl, hlap⟩

/-! ## Actions -/

/-- The invariant after a call has gone on, part by part. -/
theorem of_advance (hC : Consistent h) (hi : h.calls[i]? = some c)
    (hstep : c.step unlucky h.ring = (c', r')) (hcap : r'.capacity = h.ring.capacity)
    (henq : r'.enqueued = .ofNat (extend Call.hasPut h.puts i c c').length)
    (hdeq : r'.dequeued = .ofNat (extend Call.hasTaken h.takes i c c').length)
    (hlaps : Laps r' (look (extend Call.hasPut h.puts i c c') (h.calls.set i c'))
      (look (extend Call.hasTaken h.takes i c c') (h.calls.set i c')))
    (hfresh : ∀ d, Fresh h.ring d → Fresh r' d) (hfresh' : Fresh r' c') :
    Consistent (h.act (.advance i unlucky)) := by
  have hring : (h.act (.advance i unlucky)).ring = r' := by rw [History.ring_advance hi, hstep]
  have hcalls : (h.act (.advance i unlucky)).calls = h.calls.set i c' := by
    rw [History.calls_advance hi, hstep]
  have hputs : (h.act (.advance i unlucky)).puts = extend Call.hasPut h.puts i c c' := by
    rw [History.puts_advance hi, hstep]
  have htakes : (h.act (.advance i unlucky)).takes = extend Call.hasTaken h.takes i c c' := by
    rw [History.takes_advance hi, hstep]
  refine ⟨hC.logged.act _, ?_, ?_, ?_, ?_, fun d hd => ?_⟩
  · rw [hring, IsSized, hcap]
    exact hC.sized
  · rw [hring, hputs, henq]
  · rw [hring, htakes, hdeq]
  · rw [History.putAt, History.takeAt, hring, hputs, htakes, hcalls]
    exact hlaps
  · rw [hring]
    rw [hcalls] at hd
    rcases List.mem_or_eq_of_mem_set hd with hd | rfl
    · exact hfresh d (hC.fresh d hd)
    · exact hfresh'

/-- A call that claims nothing and leaves the ring alone. -/
theorem idle (hC : Consistent h) (hi : h.calls[i]? = some c)
    (hstep : c.step unlucky h.ring = (c', h.ring)) (hput : c'.hasPut = false)
    (htake : c'.hasTaken = false) (hfresh : Fresh h.ring c') :
    Consistent (h.act (.advance i unlucky)) := by
  have hput' : c.hasPut = false := by
    by_contra hp
    have := Call.hasPut_step (by simpa using hp) unlucky h.ring
    rw [hstep, hput] at this
    contradiction
  have htake' : c.hasTaken = false := by
    by_contra hp
    have := Call.hasTaken_step (by simpa using hp) unlucky h.ring
    rw [hstep, htake] at this
    contradiction
  have hputs := extend_of_old (hput.trans hput'.symm) h.puts i
  have htakes := extend_of_old (htake.trans htake'.symm) h.takes i
  refine hC.of_advance hi hstep rfl ?_ ?_ ?_ (fun _ hd => hd) hfresh
  · rw [hputs]
    exact hC.enqueued
  · rw [htakes]
    exact hC.dequeued
  · rw [hputs, htakes, look_set_of_not_mem (hC.logged.puts.not_mem hi hput'),
      look_set_of_not_mem (hC.logged.takes.not_mem hi htake')]
    exact hC.laps

/-- A put claims a position. Its slot is free. -/
theorem claimPut (hC : Consistent h) (hlen : h.calls.length < 2 ^ 63)
    (hi : h.calls[i]? = some (.push v (.ready h.ring.enqueued))) :
    Consistent (h.act (.advance i false)) := by
  have hlog := hC.logged.puts.length_le
  have hseq := (hC.fresh _ (List.mem_of_getElem? hi)).2 rfl
  obtain ⟨k, s, hk, hs, hlap⟩ := hC.laps.exists_lap hC.sized h.puts.length
  rw [sequence_of_getElem? (hC.index_enqueued ▸ hs), hC.enqueued] at hseq
  obtain ⟨rfl, htake, rfl⟩ := hlap.of_sequence hC.sized.two_le hk.symm hseq
    (look_length _ _) (hC.lap_lt hlen hlap) (by omega)
  have hstep : (Call.push v (.ready h.ring.enqueued)).step false h.ring =
      (.push v (.claimed h.ring.enqueued),
        { h.ring with enqueued := h.ring.enqueued + 1 }) := by
    simp [Call.step, pushStep]
  have hputs : extend Call.hasPut h.puts i (.push v (.ready h.ring.enqueued))
      (.push v (.claimed h.ring.enqueued)) = h.puts ++ [i] := extend_of_new rfl rfl _ _
  have htakes : extend Call.hasTaken h.takes i (.push v (.ready h.ring.enqueued))
      (.push v (.claimed h.ring.enqueued)) = h.takes := extend_of_old rfl _ _
  refine hC.of_advance hi hstep rfl ?_ ?_ ?_ (fun d hd => hd.mono ?_ (Nat.le_refl _) ?_ ?_) trivial
  · rw [hputs, List.length_append]
    exact hC.enqueued_add_one
  · rw [htakes]
    exact hC.dequeued
  · rw [hputs, htakes, look_extend_set hC.logged.puts hi rfl,
      look_set_of_not_mem (hC.logged.takes.not_mem hi rfl)]
    refine hC.laps.update hlap rfl hs (fun _ _ => rfl) (fun k' hk' => Function.update_of_ne hk' _ _)
      (fun _ _ => rfl) ?_
    rw [Function.update_self, hC.enqueued, ← History.takeAt, htake]
    exact .claimed v
  · rw [hC.toNat_enqueued_add_one hlen, hC.toNat_enqueued hlen]
    omega
  · intro hnext
    have := congrArg UInt64.toNat hnext
    rw [hC.toNat_enqueued_add_one hlen, hC.toNat_enqueued hlen] at this
    omega
  · exact fun _ hseq => hseq

/-- The invariant after a put has gone on at its position, part by part. -/
theorem of_put (hC : Consistent h) (hi : h.calls[i]? = some c) (hk : h.puts[k]? = some i)
    (hstep : c.step unlucky h.ring = (c', r')) (hput : c'.hasPut = c.hasPut)
    (htake : c'.hasTaken = false) (htake' : c.hasTaken = false)
    (hcap : r'.capacity = h.ring.capacity) (henq : r'.enqueued = h.ring.enqueued)
    (hdeq : r'.dequeued = h.ring.dequeued)
    (hlaps : Laps r' (Function.update h.putAt k (some c')) h.takeAt)
    (hfresh : ∀ d, Fresh h.ring d → Fresh r' d) (hfresh' : Fresh r' c') :
    Consistent (h.act (.advance i unlucky)) := by
  have hputs := extend_of_old hput h.puts i
  have htakes := extend_of_old (htake.trans htake'.symm) h.takes i
  refine hC.of_advance hi hstep hcap ?_ ?_ ?_ hfresh hfresh'
  · rw [hputs, henq, hC.enqueued]
  · rw [htakes, hdeq, hC.dequeued]
  · rw [hputs, htakes, look_set hC.logged.puts hk,
      look_set_of_not_mem (hC.logged.takes.not_mem hi htake')]
    exact hlaps

/-- The invariant after a take has gone on at its position, part by part. -/
theorem of_take (hC : Consistent h) (hi : h.calls[i]? = some c) (hk : h.takes[k]? = some i)
    (hstep : c.step unlucky h.ring = (c', r')) (htake : c'.hasTaken = c.hasTaken)
    (hput : c'.hasPut = false) (hput' : c.hasPut = false)
    (hcap : r'.capacity = h.ring.capacity) (henq : r'.enqueued = h.ring.enqueued)
    (hdeq : r'.dequeued = h.ring.dequeued)
    (hlaps : Laps r' h.putAt (Function.update h.takeAt k (some c')))
    (hfresh : ∀ d, Fresh h.ring d → Fresh r' d) (hfresh' : Fresh r' c') :
    Consistent (h.act (.advance i unlucky)) := by
  have hputs := extend_of_old (hput.trans hput'.symm) h.puts i
  have htakes := extend_of_old htake h.takes i
  refine hC.of_advance hi hstep hcap ?_ ?_ ?_ hfresh hfresh'
  · rw [hputs, henq, hC.enqueued]
  · rw [htakes, hdeq, hC.dequeued]
  · rw [hputs, htakes, look_set hC.logged.takes hk,
      look_set_of_not_mem (hC.logged.puts.not_mem hi hput')]
    exact hlaps

theorem fresh_setValue {d : Call α} (hd : Fresh h.ring d) (pos : UInt64) (v? : Option α) :
    Fresh (h.ring.setValue pos v?) d := by
  refine hd.mono (Nat.le_refl _) (Nat.le_refl _) (fun _ hseq => ?_) fun _ hseq => ?_
  · rwa [sequence_setValue]
  · rwa [sequence_setValue]

/-- A put stores its value. -/
theorem store (hC : Consistent h) (hi : h.calls[i]? = some (.push v (.claimed pos))) :
    Consistent (h.act (.advance i unlucky)) := by
  obtain ⟨k, hk, rfl, hindex, hs, htake, hlap⟩ := hC.slot_of_claimed hi
  have hstep : (Call.push v (.claimed (.ofNat k))).step unlucky h.ring =
      (.push v (.stored (.ofNat k)), h.ring.setValue (.ofNat k) (some v)) := rfl
  have hcap := capacity_setValue h.ring (.ofNat k) (some v)
  refine hC.of_put hi hk hstep rfl rfl rfl hcap rfl rfl ?_ (fun d hd => fresh_setValue hd _ _)
    trivial
  refine hC.laps.update hlap hcap (slots_setValue hindex hs _)
    (fun j hj => slots_setValue_of_ne (hindex ▸ hj) _)
    (fun k' hk' => Function.update_of_ne hk' _ _) (fun _ _ => rfl) ?_
  rw [Function.update_self, htake]
  exact .stored v

/-- A sequence number that no cursor is waiting for can change. -/
theorem fresh_setSequence {d : Call α} (hd : Fresh h.ring d) (n : UInt64)
    (hput : h.ring.sequence h.ring.enqueued = h.ring.enqueued →
      h.ring.index h.ring.enqueued ≠ h.ring.index pos)
    (htake : h.ring.sequence h.ring.dequeued = h.ring.dequeued + 1 →
      h.ring.index h.ring.dequeued ≠ h.ring.index pos) : Fresh (h.ring.setSequence pos n) d := by
  refine hd.mono (Nat.le_refl _) (Nat.le_refl _) (fun _ hseq => ?_) fun _ hseq => ?_
  · rwa [sequence_setSequence_of_ne (hput hseq)]
  · rwa [sequence_setSequence_of_ne (htake hseq)]

theorem sequence_congr {r : Ring α} {pos pos' : UInt64} (h : r.index pos = r.index pos') :
    r.sequence pos = r.sequence pos' := by
  rw [sequence, sequence, h]

/-- A put hands its slot on. -/
theorem handOn (hC : Consistent h) (hlen : h.calls.length < 2 ^ 63)
    (hi : h.calls[i]? = some (.push v (.stored pos))) :
    Consistent (h.act (.advance i unlucky)) := by
  obtain ⟨k, hk, rfl, hindex, hs, htake, hlap⟩ := hC.slot_of_stored hi
  have hlt := (List.getElem?_eq_some_iff.1 hk).1
  have hputs := hC.logged.puts.length_le
  have htakes := hC.logged.takes.length_le
  have hseq : h.ring.sequence (.ofNat k) = .ofNat k := sequence_of_getElem? (hindex.symm ▸ hs)
  have hstep : (Call.push v (.stored (.ofNat k))).step unlucky h.ring =
      (.push v (.ended true), h.ring.setSequence (.ofNat k) (.ofNat (k + 1))) := by
    rw [UInt64.ofNat_add]
    rfl
  have hcap := capacity_setSequence h.ring (.ofNat k) (.ofNat (k + 1))
  refine hC.of_put hi hk hstep rfl rfl rfl hcap rfl rfl ?_
    (fun d hd => fresh_setSequence hd _ ?_ ?_) trivial
  · refine hC.laps.update hlap hcap (slots_setSequence hindex hs _)
      (fun j hj => slots_setSequence_of_ne (hindex ▸ hj) _)
      (fun k' hk' => Function.update_of_ne hk' _ _) (fun _ _ => rfl) ?_
    rw [Function.update_self, htake]
    exact .full v
  · intro hcursor heq
    rw [sequence_congr heq, hseq, hC.enqueued] at hcursor
    have := ofNat_inj (by omega) (by omega) hcursor
    omega
  · intro hcursor heq
    rw [sequence_congr heq, hseq, hC.dequeued_add_one] at hcursor
    rw [hindex, hC.index_dequeued, ofNat_inj (by omega) (by omega) hcursor] at heq
    exact succ_mod_ne hC.sized.two_le _ heq.symm

/-- A take claims a position. Its slot holds a value. -/
theorem claimTake (hC : Consistent h) (hlen : h.calls.length < 2 ^ 63)
    (hi : h.calls[i]? = some (.pop (.ready h.ring.dequeued))) :
    Consistent (h.act (.advance i false)) := by
  have hlog := hC.logged.takes.length_le
  have hseq := (hC.fresh _ (List.mem_of_getElem? hi)).2 rfl
  obtain ⟨k, s, hk, hs, hlap⟩ := hC.laps.exists_lap hC.sized h.takes.length
  rw [sequence_of_getElem? (hC.index_dequeued ▸ hs), hC.dequeued_add_one] at hseq
  obtain ⟨rfl, v, hput, rfl⟩ := hlap.of_sequence_succ hC.sized.two_le hk.symm hseq
    (look_length _ _) (hC.lap_lt hlen hlap) (by omega)
  have hstep : (Call.pop (.ready h.ring.dequeued) : Call α).step false h.ring =
      (.pop (.claimed h.ring.dequeued),
        { h.ring with dequeued := h.ring.dequeued + 1 }) := by
    simp [Call.step, popStep]
  have hputs : extend Call.hasPut h.puts i (.pop (.ready h.ring.dequeued) : Call α)
      (.pop (.claimed h.ring.dequeued)) = h.puts := extend_of_old rfl _ _
  have htakes : extend Call.hasTaken h.takes i (.pop (.ready h.ring.dequeued) : Call α)
      (.pop (.claimed h.ring.dequeued)) = h.takes ++ [i] := extend_of_new rfl rfl _ _
  refine hC.of_advance hi hstep rfl ?_ ?_ ?_ (fun d hd => hd.mono (Nat.le_refl _) ?_ ?_ ?_) trivial
  · rw [hputs]
    exact hC.enqueued
  · rw [htakes, List.length_append]
    exact hC.dequeued_add_one
  · rw [hputs, htakes, look_extend_set hC.logged.takes hi rfl,
      look_set_of_not_mem (hC.logged.puts.not_mem hi rfl)]
    refine hC.laps.update hlap rfl hs (fun _ _ => rfl) (fun _ _ => rfl)
      (fun k' hk' => Function.update_of_ne hk' _ _) ?_
    rw [Function.update_self, hC.dequeued, ← History.putAt, hput]
    exact .taken v
  · rw [hC.toNat_dequeued_add_one hlen, hC.toNat_dequeued hlen]
    omega
  · exact fun _ hseq => hseq
  · intro hnext
    have := congrArg UInt64.toNat hnext
    rw [hC.toNat_dequeued_add_one hlen, hC.toNat_dequeued hlen] at this
    omega

/-- A take fetches the value of the put. -/
theorem fetch (hC : Consistent h) (hi : h.calls[i]? = some (.pop (.claimed pos))) :
    Consistent (h.act (.advance i unlucky)) := by
  obtain ⟨k, v, hk, rfl, hindex, hs, hput, hlap⟩ := hC.slot_of_taken hi
  have hvalue : h.ring.value? (.ofNat k) = some v := value?_of_getElem? (hindex.symm ▸ hs)
  have hstep : (Call.pop (.claimed (.ofNat k))).step unlucky h.ring =
      (.pop (.fetched (.ofNat k) (some v)), h.ring.setValue (.ofNat k) none) := by
    rw [← hvalue]
    rfl
  have hcap := capacity_setValue h.ring (.ofNat k) none
  refine hC.of_take hi hk hstep rfl rfl rfl hcap rfl rfl ?_ (fun d hd => fresh_setValue hd _ _)
    trivial
  refine hC.laps.update hlap hcap (slots_setValue hindex hs _)
    (fun j hj => slots_setValue_of_ne (hindex ▸ hj) _) (fun _ _ => rfl)
    (fun k' hk' => Function.update_of_ne hk' _ _) ?_
  rw [Function.update_self, hput]
  exact .fetched v

/-- A take hands its slot on to the next lap. -/
theorem release (hC : Consistent h) (hlen : h.calls.length < 2 ^ 63) {v? : Option α}
    (hi : h.calls[i]? = some (.pop (.fetched pos v?))) :
    Consistent (h.act (.advance i unlucky)) := by
  obtain ⟨k, v, hk, rfl, hindex, hs, hput, rfl, hlap⟩ := hC.slot_of_fetched hi
  have hlt := (List.getElem?_eq_some_iff.1 hk).1
  have hputs := hC.logged.puts.length_le
  have htakes := hC.logged.takes.length_le
  have hseq : h.ring.sequence (.ofNat k) = .ofNat (k + 1) :=
    sequence_of_getElem? (hindex.symm ▸ hs)
  have hstep : (Call.pop (.fetched (.ofNat k) (some v))).step unlucky h.ring =
      (.pop (.ended (some v)),
        h.ring.setSequence (.ofNat k) (.ofNat (k + h.ring.capacity))) := by
    rw [UInt64.ofNat_add]
    rfl
  have hcap := capacity_setSequence h.ring (.ofNat k) (.ofNat (k + h.ring.capacity))
  refine hC.of_take hi hk hstep rfl rfl rfl hcap rfl rfl ?_
    (fun d hd => fresh_setSequence hd _ ?_ ?_) trivial
  · refine hC.laps.release hC.sized hlap hcap (slots_setSequence hindex hs _)
      (fun j hj => slots_setSequence_of_ne (hindex ▸ hj) _)
      (fun k' hk' => Function.update_of_ne hk' _ _) ⟨v, hput, ?_⟩
    rw [Function.update_self]
  · intro hcursor heq
    rw [sequence_congr heq, hseq, hC.enqueued] at hcursor
    rw [hindex, hC.index_enqueued, ← ofNat_inj (by omega) (by omega) hcursor] at heq
    exact succ_mod_ne hC.sized.two_le _ heq
  · intro hcursor heq
    rw [sequence_congr heq, hseq, hC.dequeued_add_one] at hcursor
    have := ofNat_inj (by omega) (by omega) hcursor
    omega

/-- A put that goes on keeps the invariant. -/
theorem act_push (hC : Consistent h) (hlen : h.calls.length < 2 ^ 63) {phase : PushPhase}
    (hi : h.calls[i]? = some (.push v phase)) : Consistent (h.act (.advance i unlucky)) := by
  have hfresh := hC.fresh _ (List.mem_of_getElem? hi)
  cases phase with
  | start => exact hC.idle hi rfl rfl rfl (Nat.le_refl _)
  | position pos =>
    cases hturn : turn (h.ring.sequence pos) pos with
    | eq =>
      have hstep : (Call.push v (.position pos)).step unlucky h.ring =
          (.push v (.ready pos), h.ring) := by simp [Call.step, pushStep, hturn]
      exact hC.idle hi hstep rfl rfl ⟨hfresh, fun _ => eq_of_turn hturn⟩
    | lt =>
      have hstep : (Call.push v (.position pos)).step unlucky h.ring =
          (.push v (.ended false), h.ring) := by simp [Call.step, pushStep, hturn]
      exact hC.idle hi hstep rfl rfl trivial
    | gt =>
      have hstep : (Call.push v (.position pos)).step unlucky h.ring =
          (.push v .start, h.ring) := by simp [Call.step, pushStep, hturn]
      exact hC.idle hi hstep rfl rfl trivial
  | ready pos =>
    by_cases hclaim : h.ring.enqueued = pos ∧ unlucky = false
    · obtain ⟨rfl, rfl⟩ := hclaim
      exact hC.claimPut hlen hi
    · have hstep : (Call.push v (.ready pos)).step unlucky h.ring =
          (.push v (.position h.ring.enqueued), h.ring) := by
        simp only [Call.step, pushStep, if_neg hclaim]
      exact hC.idle hi hstep rfl rfl (Nat.le_refl _)
  | claimed pos => exact hC.store hi
  | stored pos => exact hC.handOn hlen hi
  | ended accepted => rwa [History.act_advance_of_fixed hi rfl]

/-- A take that goes on keeps the invariant. -/
theorem act_pop (hC : Consistent h) (hlen : h.calls.length < 2 ^ 63) {phase : PopPhase α}
    (hi : h.calls[i]? = some (.pop phase)) : Consistent (h.act (.advance i unlucky)) := by
  have hfresh := hC.fresh _ (List.mem_of_getElem? hi)
  cases phase with
  | start => exact hC.idle hi rfl rfl rfl (Nat.le_refl _)
  | position pos =>
    cases hturn : turn (h.ring.sequence pos) (pos + 1) with
    | eq =>
      have hstep : (Call.pop (.position pos)).step unlucky h.ring =
          (.pop (.ready pos), h.ring) := by simp [Call.step, popStep, hturn]
      exact hC.idle hi hstep rfl rfl ⟨hfresh, fun _ => eq_of_turn hturn⟩
    | lt =>
      have hstep : (Call.pop (.position pos)).step unlucky h.ring = (.pop .empty, h.ring) := by
        simp [Call.step, popStep, hturn]
      exact hC.idle hi hstep rfl rfl trivial
    | gt =>
      have hstep : (Call.pop (.position pos)).step unlucky h.ring = (.pop .start, h.ring) := by
        simp [Call.step, popStep, hturn]
      exact hC.idle hi hstep rfl rfl trivial
  | ready pos =>
    by_cases hclaim : h.ring.dequeued = pos ∧ unlucky = false
    · obtain ⟨rfl, rfl⟩ := hclaim
      exact hC.claimTake hlen hi
    · have hstep : (Call.pop (.ready pos)).step unlucky h.ring =
          (.pop (.position h.ring.dequeued), h.ring) := by
        simp only [Call.step, popStep, if_neg hclaim]
      exact hC.idle hi hstep rfl rfl (Nat.le_refl _)
  | claimed pos => exact hC.fetch hi
  | fetched pos v? => exact hC.release hlen hi
  | ended v? => rwa [History.act_advance_of_fixed hi rfl]
  | empty => rwa [History.act_advance_of_fixed hi rfl]

/-- A call that begins keeps the invariant. -/
theorem act_begin {c : Call α} {h' : History α} (hC : Consistent h) (hlogged : h'.Logged)
    (hring : h'.ring = h.ring) (hputs : h'.puts = h.puts) (htakes : h'.takes = h.takes)
    (hcalls : h'.calls = h.calls ++ [c]) (hfresh : Fresh h.ring c) : Consistent h' := by
  refine ⟨hlogged, ?_, ?_, ?_, ?_, fun d hd => ?_⟩
  · rw [hring]
    exact hC.sized
  · rw [hring, hputs, hC.enqueued]
  · rw [hring, htakes, hC.dequeued]
  · rw [History.putAt, History.takeAt, hring, hputs, htakes, hcalls, look_concat hC.logged.puts,
      look_concat hC.logged.takes]
    exact hC.laps
  · rw [hcalls, List.mem_append, List.mem_singleton] at hd
    rw [hring]
    rcases hd with hd | rfl
    · exact hC.fresh d hd
    · exact hfresh

/-- Every action keeps the invariant. -/
theorem act (hC : Consistent h) (hlen : h.calls.length < 2 ^ 63) (a : Action α) :
    Consistent (h.act a) := by
  cases a with
  | beginPush v => exact hC.act_begin (hC.logged.act _) rfl rfl rfl rfl trivial
  | beginPop => exact hC.act_begin (hC.logged.act _) rfl rfl rfl rfl trivial
  | advance i unlucky =>
    cases hi : h.calls[i]? with
    | none => rwa [History.act_advance_of_none hi]
    | some c =>
      cases c with
      | push v phase => exact hC.act_push hlen hi
      | pop phase => exact hC.act_pop hlen hi

end Consistent

/-- Every run keeps the invariant. -/
theorem consistent_run (n : Nat) (as : List (Action α))
    (hlen : (run n as).calls.length < 2 ^ 63) : Consistent (run n as) := by
  induction as using List.reverseRecOn with
  | nil =>
    exact ⟨logged_run n [], isSized_withCapacity n, rfl, rfl, laps_withCapacity n,
      fun c hc => absurd hc (List.not_mem_nil)⟩
  | append_singleton as a ih =>
    rw [run_concat] at hlen ⊢
    have hlen' := Nat.lt_of_le_of_lt ((run n as).length_calls_act a) hlen
    exact (ih hlen').act hlen' a

end HttpServer.Ring
