import HttpServer.Proofs.Ring.History

/-!
# The laps of a slot

The positions that fall to one slot lie one capacity apart, and the slot serves them one
after the other : it is free for the put with the position, holds the value from when the put
has stored it until the take has fetched it, and is then free for the put of the next lap.
`Ring.SlotState` says what the sequence number and the value of a slot are in each of these
situations, and `Ring.Lap` that the slot is at a position : both calls are through with all
its earlier positions, and no call has claimed a later one.

So a position that has been claimed and is not finished is the one that its slot is at
(`Ring.Laps.finished_or_lap`), and a slot whose sequence number announces a position that
nobody has claimed is at that position (`Ring.Lap.of_sequence`, `Ring.Lap.of_sequence_succ`).
The slot goes on within a position (`Ring.Laps.update`) or to the next one
(`Ring.Laps.release`), and no other slot is affected.
-/

namespace HttpServer.Ring

variable {α : Type}

/-! ## One slot -/

/-- What the put and the take with position `k` have made of the slot for it. -/
inductive SlotState (k : Nat) : Option (Call α) → Option (Call α) → Slot α → Prop where
  /-- The put has not claimed the position. -/
  | free : SlotState k none none ⟨.ofNat k, none⟩
  /-- The put is to store the value. -/
  | claimed (v : α) : SlotState k (some (.push v (.claimed (.ofNat k)))) none ⟨.ofNat k, none⟩
  /-- The put is to hand the slot on. -/
  | stored (v : α) : SlotState k (some (.push v (.stored (.ofNat k)))) none ⟨.ofNat k, some v⟩
  /-- The take has not claimed the position. -/
  | full (v : α) : SlotState k (some (.push v (.ended true))) none ⟨.ofNat (k + 1), some v⟩
  /-- The take is to fetch the value. -/
  | taken (v : α) : SlotState k (some (.push v (.ended true)))
    (some (.pop (.claimed (.ofNat k)))) ⟨.ofNat (k + 1), some v⟩
  /-- The take is to hand the slot on. -/
  | fetched (v : α) : SlotState k (some (.push v (.ended true)))
    (some (.pop (.fetched (.ofNat k) (some v)))) ⟨.ofNat (k + 1), none⟩

namespace SlotState

variable {k : Nat} {p t : Option (Call α)} {s : Slot α} {v : α} {pos : UInt64}

theorem of_claimed (h : SlotState k (some (.push v (.claimed pos))) t s) :
    pos = .ofNat k ∧ t = none ∧ s = ⟨.ofNat k, none⟩ := by
  cases h
  exact ⟨rfl, rfl, rfl⟩

theorem of_stored (h : SlotState k (some (.push v (.stored pos))) t s) :
    pos = .ofNat k ∧ t = none ∧ s = ⟨.ofNat k, some v⟩ := by
  cases h
  exact ⟨rfl, rfl, rfl⟩

theorem of_taken (h : SlotState k p (some (.pop (.claimed pos))) s) :
    pos = .ofNat k ∧ ∃ v, p = some (.push v (.ended true)) ∧ s = ⟨.ofNat (k + 1), some v⟩ := by
  cases h with
  | taken v => exact ⟨rfl, v, rfl, rfl⟩

theorem of_fetched {v? : Option α} (h : SlotState k p (some (.pop (.fetched pos v?))) s) :
    pos = .ofNat k ∧ ∃ v, v? = some v ∧ p = some (.push v (.ended true)) ∧
      s = ⟨.ofNat (k + 1), none⟩ := by
  cases h with
  | fetched v => exact ⟨rfl, v, rfl, rfl, rfl⟩

theorem position_of_put {c : Call α} (h : SlotState k (some c) t s)
    (hpos : c.claimed? = some pos) : pos = .ofNat k := by
  cases h with
  | claimed | stored => exact (Option.some.inj hpos).symm
  | full | taken | fetched => contradiction

theorem position_of_take {c : Call α} (h : SlotState k p (some c) s)
    (hpos : c.claimed? = some pos) : pos = .ofNat k := by
  cases h with
  | taken | fetched => exact (Option.some.inj hpos).symm

theorem not_ended {v? : Option α} (h : SlotState k p (some (.pop (.ended v?))) s) : False := by
  cases h

theorem of_full (h : SlotState k (some (.push v (.ended true))) none s) :
    s = ⟨.ofNat (k + 1), some v⟩ := by
  cases h
  rfl

/-- If neither call is under way, a slot that holds a value is waiting for the take. -/
theorem full_of_value (h : SlotState k p t s) (hv : s.value? = some v)
    (hp : ∀ c, p = some c → c.hasEnded = true) (ht : ∀ c, t = some c → c.hasEnded = true) :
    p = some (.push v (.ended true)) ∧ t = none := by
  cases h with
  | free | claimed | fetched => contradiction
  | stored w => exact absurd (hp _ rfl) (by simp [Call.hasEnded])
  | taken w => exact absurd (ht _ rfl) (by simp [Call.hasEnded])
  | full w =>
    obtain rfl := Option.some.inj hv
    exact ⟨rfl, rfl⟩

end SlotState

/-- The put has ended, and the take has ended with its value. -/
def Finished (put take : Option (Call α)) : Prop :=
  ∃ v, put = some (.push v (.ended true)) ∧ take = some (.pop (.ended (some v)))

/-- Of the positions that fall to a slot, the slot is at `k`; `n` is the capacity. -/
structure Lap (n : Nat) (put take : Nat → Option (Call α)) (k : Nat) (s : Slot α) : Prop where
  state : SlotState k (put k) (take k) s
  past {k' : Nat} : k' % n = k % n → k' < k → Finished (put k') (take k')
  future {k' : Nat} : k' % n = k % n → k < k' → put k' = none ∧ take k' = none

variable {n k k₀ : Nat} {put take put' take' : Nat → Option (Call α)} {s s' : Slot α}

/-- The sequence number is the position until the put hands the slot on, and then the number
after it. -/
theorem SlotState.sequence_eq {p t : Option (Call α)} (h : SlotState k p t s) :
    s.sequence = UInt64.ofNat k ∨ s.sequence = UInt64.ofNat (k + 1) := by
  cases h with
  | free | claimed | stored => exact .inl rfl
  | full | taken | fetched => exact .inr rfl

namespace Lap

/-- Only the positions that fall to the slot matter. -/
theorem congr (h : Lap n put take k s) (hput : ∀ {k'}, k' % n = k % n → put' k' = put k')
    (htake : ∀ {k'}, k' % n = k % n → take' k' = take k') : Lap n put' take' k s where
  state := by
    rw [hput rfl, htake rfl]
    exact h.state
  past hmod hlt := by
    rw [hput hmod, htake hmod]
    exact h.past hmod hlt
  future hmod hlt := by
    rw [hput hmod, htake hmod]
    exact h.future hmod hlt

theorem eq_of_not_finished (h : Lap n put take k s) (hk : k₀ % n = k % n)
    (hne : put k₀ ≠ none ∨ take k₀ ≠ none) (hf : ¬Finished (put k₀) (take k₀)) : k₀ = k := by
  rcases Nat.lt_trichotomy k₀ k with hlt | rfl | hgt
  · exact absurd (h.past hk hlt) hf
  · rfl
  · obtain ⟨hput, htake⟩ := h.future hk hgt
    rw [hput, htake] at hne
    simp at hne

/-- A slot is less than one lap ahead of the positions that have been claimed. -/
theorem lt_add (h : Lap n put take k s) (hn : 0 < n) {b : Nat} (hb : ∀ {k}, put k ≠ none → k < b) :
    k < b + n := by
  rcases Nat.lt_or_ge k n with hk | hk
  · omega
  · have hpast : Finished (put (k - n)) (take (k - n)) :=
      h.past (Nat.mod_eq_sub_mod hk).symm (by omega)
    have hlt : k - n < b := hb fun h0 => by
      obtain ⟨v, hv, -⟩ := hpast
      rw [h0] at hv
      contradiction
    omega

/-- A slot that announces the put with a position is at that position. -/
theorem of_sequence (h : Lap n put take k s) (hn : 2 ≤ n) (hk : k₀ % n = k % n)
    (hseq : s.sequence = UInt64.ofNat k₀) (hput : put k₀ = none) (hlt : k + 1 < 2 ^ 64)
    (hlt₀ : k₀ < 2 ^ 64) : k = k₀ ∧ take k₀ = none ∧ s = ⟨UInt64.ofNat k₀, none⟩ := by
  obtain rfl : k = k₀ := by
    rcases h.state.sequence_eq with hs | hs
    · exact ofNat_inj (by omega) hlt₀ (hs.symm.trans hseq)
    · have heq := ofNat_inj hlt hlt₀ (hs.symm.trans hseq)
      rw [← heq] at hk
      exact absurd hk (succ_mod_ne hn k)
  have hstate := h.state
  generalize put k = p at hput hstate
  generalize take k = t at hstate ⊢
  subst hput
  cases hstate
  exact ⟨rfl, rfl, rfl⟩

/-- A slot that announces the take with a position is at that position, and holds the value of
the put. -/
theorem of_sequence_succ (h : Lap n put take k s) (hn : 2 ≤ n) (hk : k₀ % n = k % n)
    (hseq : s.sequence = UInt64.ofNat (k₀ + 1)) (htake : take k₀ = none) (hlt : k + 1 < 2 ^ 64)
    (hlt₀ : k₀ + 1 < 2 ^ 64) :
    k = k₀ ∧ ∃ v, put k₀ = some (.push v (.ended true)) ∧
      s = ⟨UInt64.ofNat (k₀ + 1), some v⟩ := by
  obtain rfl : k = k₀ := by
    rcases h.state.sequence_eq with hs | hs
    · have heq := ofNat_inj (by omega) hlt₀ (hs.symm.trans hseq)
      rw [heq] at hk
      exact absurd hk.symm (succ_mod_ne hn k₀)
    · have := ofNat_inj hlt hlt₀ (hs.symm.trans hseq)
      omega
  have hne : UInt64.ofNat k ≠ UInt64.ofNat (k + 1) := fun h0 => by
    have := ofNat_inj (by omega) hlt h0
    omega
  have hstate := h.state
  generalize put k = p at hstate ⊢
  generalize take k = t at htake hstate
  subst htake
  cases hstate with
  | free | claimed | stored => exact absurd hseq hne
  | full v => exact ⟨rfl, v, rfl, rfl⟩

end Lap

/-! ## All slots -/

/-- Every slot is at one of the positions that fall to it. -/
def Laps (r : Ring α) (put take : Nat → Option (Call α)) : Prop :=
  ∀ j < r.capacity, ∃ k s, k % r.capacity = j ∧ r.slots[j]? = some s ∧ Lap r.capacity put take k s

namespace Laps

variable {r r' : Ring α}

theorem exists_lap (h : Laps r put take) (hr : r.IsSized) (k₀ : Nat) :
    ∃ k s, k % r.capacity = k₀ % r.capacity ∧ r.slots[k₀ % r.capacity]? = some s ∧
      Lap r.capacity put take k s :=
  h _ (Nat.mod_lt _ (Nat.lt_of_lt_of_le Nat.two_pos hr.two_le))

/-- A position that has been claimed is finished, or its slot is at it. -/
theorem finished_or_lap (h : Laps r put take) (hr : r.IsSized)
    (hne : put k ≠ none ∨ take k ≠ none) :
    Finished (put k) (take k) ∨
      ∃ s, r.slots[k % r.capacity]? = some s ∧ Lap r.capacity put take k s := by
  by_cases hf : Finished (put k) (take k)
  · exact .inl hf
  · obtain ⟨k', s, hk, hs, hlap⟩ := h.exists_lap hr k
    obtain rfl := hlap.eq_of_not_finished hk.symm hne hf
    exact .inr ⟨s, hs, hlap⟩

/-- A slot goes on at its position. -/
theorem update (h : Laps r put take) (hk : Lap r.capacity put take k s)
    (hcap : r'.capacity = r.capacity) (hs' : r'.slots[k % r.capacity]? = some s')
    (hother : ∀ j, j ≠ k % r.capacity → r'.slots[j]? = r.slots[j]?)
    (hput : ∀ k', k' ≠ k → put' k' = put k') (htake : ∀ k', k' ≠ k → take' k' = take k')
    (hstate : SlotState k (put' k) (take' k) s') : Laps r' put' take' := by
  intro j hj
  rw [hcap] at hj ⊢
  by_cases hjk : j = k % r.capacity
  · subst hjk
    refine ⟨k, s', rfl, hs', hstate, fun hmod hlt => ?_, fun hmod hlt => ?_⟩
    · rw [hput _ (Nat.ne_of_lt hlt), htake _ (Nat.ne_of_lt hlt)]
      exact hk.past hmod hlt
    · rw [hput _ (Nat.ne_of_gt hlt), htake _ (Nat.ne_of_gt hlt)]
      exact hk.future hmod hlt
  · obtain ⟨k₁, s₁, rfl, hs₁, hlap⟩ := h j hj
    have hne {k' : Nat} (hmod : k' % r.capacity = k₁ % r.capacity) : k' ≠ k := by
      rintro rfl
      exact hjk hmod.symm
    exact ⟨k₁, s₁, rfl, by rw [hother _ hjk, hs₁],
      hlap.congr (fun hmod => hput _ (hne hmod)) fun hmod => htake _ (hne hmod)⟩

/-- A slot goes on to its next position. -/
theorem release (h : Laps r put take) (hr : r.IsSized) (hk : Lap r.capacity put take k s)
    (hcap : r'.capacity = r.capacity)
    (hs' : r'.slots[k % r.capacity]? = some ⟨.ofNat (k + r.capacity), none⟩)
    (hother : ∀ j, j ≠ k % r.capacity → r'.slots[j]? = r.slots[j]?)
    (htake : ∀ k', k' ≠ k → take' k' = take k') (hf : Finished (put k) (take' k)) :
    Laps r' put take' := by
  have hpos := Nat.lt_of_lt_of_le Nat.two_pos hr.two_le
  intro j hj
  rw [hcap] at hj ⊢
  by_cases hjk : j = k % r.capacity
  · subst hjk
    have hnext : (k + r.capacity) % r.capacity = k % r.capacity := Nat.add_mod_right k r.capacity
    have hfree := hk.future hnext (by omega)
    refine ⟨k + r.capacity, _, hnext, hs', ?_, fun {k'} hmod hlt => ?_, fun {k'} hmod hlt => ?_⟩
    · rw [htake _ (by omega), hfree.1, hfree.2]
      exact .free
    · rw [hnext] at hmod
      by_cases hkk : k' = k
      · rwa [hkk]
      · rw [htake _ hkk]
        refine hk.past hmod ?_
        by_contra hge
        have := Nat.sub_mod_eq_zero_of_mod_eq hmod
        rw [Nat.mod_eq_of_lt (by omega)] at this
        omega
    · rw [htake _ (by omega)]
      exact hk.future (hmod.trans hnext) (by omega)
  · obtain ⟨k₁, s₁, rfl, hs₁, hlap⟩ := h j hj
    have hne {k' : Nat} (hmod : k' % r.capacity = k₁ % r.capacity) : k' ≠ k := by
      rintro rfl
      exact hjk hmod.symm
    exact ⟨k₁, s₁, rfl, by rw [hother _ hjk, hs₁],
      hlap.congr (fun _ => rfl) fun hmod => htake _ (hne hmod)⟩

end Laps

/-- The slots of an empty ring are at their first positions. -/
theorem laps_withCapacity (n : Nat) :
    Laps (withCapacity n : Ring α) (fun _ => none) (fun _ => none) := by
  intro j hj
  rw [capacity_withCapacity] at hj
  refine ⟨j, ⟨.ofNat j, none⟩, Nat.mod_eq_of_lt (by simpa using hj), getElem?_withCapacity hj,
    .free, fun {k'} hmod hlt => ?_, fun _ _ => ⟨rfl, rfl⟩⟩
  rw [capacity_withCapacity, Nat.mod_eq_of_lt hj, Nat.mod_eq_of_lt (by omega)] at hmod
  omega

end HttpServer.Ring
