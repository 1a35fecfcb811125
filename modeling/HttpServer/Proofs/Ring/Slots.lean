import HttpServer.Proofs.PowersOfTwo
import HttpServer.Ring
import Mathlib.Algebra.Group.Nat.Defs

/-!
# Which slot a position falls to

The number of slots is a power of two of 64 bits, so masking a position comes to the same as
its remainder (`Ring.index_eq_mod`). As there are at least two slots, neighbouring positions
fall to different ones (`Ring.succ_mod_ne`).
-/

namespace HttpServer.Ring

variable {α : Type} {r : Ring α}

/-- There are at least two slots, and their number is a power of two of 64 bits. -/
def IsSized (r : Ring α) : Prop := ∃ m, 1 ≤ m ∧ m ≤ 63 ∧ r.capacity = 2 ^ m

theorem roundCapacity_eq_two_pow (n : Nat) : ∃ m, 1 ≤ m ∧ m ≤ 63 ∧ roundCapacity n = 2 ^ m := by
  obtain ⟨m, hm, hpow⟩ := powerOfTwo_eq_two_pow n
  rw [roundCapacity, hpow]
  rcases Nat.eq_zero_or_pos m with rfl | hpos
  · exact ⟨1, by decide, by decide, by decide⟩
  · exact ⟨m, hpos, hm, Nat.max_eq_left (Nat.pow_le_pow_right Nat.two_pos hpos)⟩

theorem isSized_withCapacity (n : Nat) : (withCapacity n : Ring α).IsSized := by
  rw [IsSized, capacity_withCapacity]
  exact roundCapacity_eq_two_pow n

theorem IsSized.two_le (h : r.IsSized) : 2 ≤ r.capacity := by
  obtain ⟨m, h1, -, hm⟩ := h
  rw [hm]
  exact Nat.pow_le_pow_right Nat.two_pos h1

theorem IsSized.le (h : r.IsSized) : r.capacity ≤ 2 ^ 63 := by
  obtain ⟨m, -, h1, hm⟩ := h
  rw [hm]
  exact Nat.pow_le_pow_right Nat.two_pos h1

theorem toNat_mask (h : r.IsSized) :
    (UInt64.ofNat (r.capacity - 1)).toNat = r.capacity - 1 := by
  have hle := h.le
  rw [UInt64.toNat_ofNat', Nat.mod_eq_of_lt (by omega)]

/-- Masking a position reduces it to its remainder. -/
theorem index_eq_mod (h : r.IsSized) (pos : UInt64) :
    r.index pos = pos.toNat % r.capacity := by
  rw [index, UInt64.toNat_and, toNat_mask h]
  obtain ⟨m, -, -, hm⟩ := h
  rw [hm, Nat.and_two_pow_sub_one_eq_mod]

theorem ofNat_inj {a b : Nat} (ha : a < 2 ^ 64) (hb : b < 2 ^ 64)
    (h : UInt64.ofNat a = UInt64.ofNat b) : a = b := by
  have := congrArg UInt64.toNat h
  rwa [UInt64.toNat_ofNat_of_lt' ha, UInt64.toNat_ofNat_of_lt' hb] at this

/-- A position that is counted without end falls to the slot of its remainder, however often it
has wrapped around. -/
theorem index_ofNat (hr : r.IsSized) (k : Nat) : r.index (.ofNat k) = k % r.capacity := by
  have hdvd : r.capacity ∣ 2 ^ 64 := by
    obtain ⟨m, -, hm, hcap⟩ := hr
    exact hcap ▸ Nat.pow_dvd_pow 2 (by omega)
  rw [index_eq_mod hr, UInt64.toNat_ofNat', Nat.mod_mod_of_dvd _ hdvd]

/-- Neighbouring positions fall to different slots. -/
theorem succ_mod_ne {n : Nat} (hn : 2 ≤ n) (k : Nat) : (k + 1) % n ≠ k % n := by
  intro h
  have := Nat.sub_mod_eq_zero_of_mod_eq h
  rw [Nat.add_sub_cancel_left, Nat.mod_eq_of_lt hn] at this
  contradiction

end HttpServer.Ring
