import HttpServer.Word
import Mathlib.Algebra.Group.Nat.Defs
import Mathlib.Order.Bounds.Defs
import Mathlib.Order.Monotone.Defs
import Mathlib.Order.Nat

/-!
# Rounding up to powers of two

`powerOfTwo` gives a power of two of 64 bits. How it compares with the others is decided by the
number that was rounded (`powerOfTwo_le_two_pow_iff`), and from this all else follows : it is the
least that is large enough, larger numbers are not rounded to less, and what is a power of two
already is left as it is (`roundsUp_powerOfTwo`).
-/

namespace HttpServer

variable {m n k : Nat}

/-! ## Comparison with the powers of two -/

theorem two_pow_le_wordMax_iff : 2 ^ m ≤ wordMax ↔ m ≤ 63 := by
  have hlt : 2 ^ m < 2 ^ 64 ↔ m < 64 := Nat.pow_lt_pow_iff_right (by decide)
  have hmax : wordMax + 1 = 2 ^ 64 := by decide
  omega

theorem powerOfTwo_eq_min (h : ¬n ≤ 1) :
    powerOfTwo n = min (2 ^ ((n - 1).log2 + 1)) (2 ^ 63) := by
  rw [powerOfTwo, if_neg h, nextPowerOfTwo?, if_neg h, Nat.one_shiftLeft, Nat.one_shiftLeft]
  generalize (n - 1).log2 + 1 = m
  by_cases hm : m ≤ 63
  · rw [if_pos (two_pow_le_wordMax_iff.2 hm), Option.getD_some,
      Nat.min_eq_left (Nat.pow_le_pow_right Nat.two_pos hm)]
  · rw [if_neg (mt two_pow_le_wordMax_iff.1 hm), Option.getD_none,
      Nat.min_eq_right (Nat.pow_le_pow_right Nat.two_pos (by omega))]

theorem powerOfTwo_eq_two_pow (n : Nat) : ∃ m, m ≤ 63 ∧ powerOfTwo n = 2 ^ m := by
  by_cases h : n ≤ 1
  · exact ⟨0, by decide, if_pos h⟩
  · rw [powerOfTwo_eq_min h]
    generalize (n - 1).log2 + 1 = m
    rcases Nat.le_total m 63 with hm | hm
    · exact ⟨m, hm, Nat.min_eq_left (Nat.pow_le_pow_right Nat.two_pos hm)⟩
    · exact ⟨63, Nat.le_refl _, Nat.min_eq_right (Nat.pow_le_pow_right Nat.two_pos hm)⟩

theorem powerOfTwo_pos (n : Nat) : 0 < powerOfTwo n := by
  obtain ⟨m, -, h⟩ := powerOfTwo_eq_two_pow n
  exact h ▸ Nat.two_pow_pos m

/-- A power of two is at least `powerOfTwo n` exactly if it is at least `n`, or the largest of
all. -/
theorem powerOfTwo_le_two_pow_iff : powerOfTwo n ≤ 2 ^ k ↔ min n (2 ^ 63) ≤ 2 ^ k := by
  by_cases h : n ≤ 1
  · have hpos := Nat.two_pow_pos k
    rw [powerOfTwo, if_pos h]
    omega
  · have hlog : 2 ^ ((n - 1).log2 + 1) ≤ 2 ^ k ↔ n ≤ 2 ^ k := by
      rw [Nat.pow_le_pow_iff_right (by decide), Nat.succ_le_iff, Nat.log2_lt (by omega)]
      omega
    rw [powerOfTwo_eq_min h]
    omega

/-! ## Rounding up -/

/-- The function rounds up to powers of two of 64 bits : it gives the least one that is large
enough, or the largest one if none is. -/
structure RoundsUp (f : Nat → Nat) : Prop where
  isPowerOfTwo : ∀ n, (f n).isPowerOfTwo
  isLeast : ∀ n ≤ 2 ^ 63, IsLeast {p | p.isPowerOfTwo ∧ max n 1 ≤ p} (f n)
  eq_largest : ∀ n, 2 ^ 63 < n → f n = 2 ^ 63
  monotone : Monotone f
  fixed : ∀ n, f (f n) = f n

theorem isPowerOfTwo_powerOfTwo (n : Nat) : (powerOfTwo n).isPowerOfTwo := by
  obtain ⟨m, -, h⟩ := powerOfTwo_eq_two_pow n
  exact ⟨m, h⟩

theorem powerOfTwo_le (n : Nat) : powerOfTwo n ≤ 2 ^ 63 := by
  obtain ⟨m, hm, h⟩ := powerOfTwo_eq_two_pow n
  exact h ▸ Nat.pow_le_pow_right Nat.two_pos hm

theorem min_le_powerOfTwo (n : Nat) : min n (2 ^ 63) ≤ powerOfTwo n := by
  obtain ⟨m, -, h⟩ := powerOfTwo_eq_two_pow n
  rw [h]
  exact powerOfTwo_le_two_pow_iff.1 h.le

theorem le_powerOfTwo (hn : n ≤ 2 ^ 63) : n ≤ powerOfTwo n := by
  have := min_le_powerOfTwo n
  rwa [min_eq_left hn] at this

theorem powerOfTwo_of_lt (hn : 2 ^ 63 < n) : powerOfTwo n = 2 ^ 63 := by
  have := min_le_powerOfTwo n
  rw [min_eq_right hn.le] at this
  exact (powerOfTwo_le n).antisymm this

theorem isLeast_powerOfTwo (hn : n ≤ 2 ^ 63) :
    IsLeast {p | p.isPowerOfTwo ∧ max n 1 ≤ p} (powerOfTwo n) := by
  refine ⟨⟨isPowerOfTwo_powerOfTwo n, max_le (le_powerOfTwo hn) (powerOfTwo_pos n)⟩, ?_⟩
  rintro _ ⟨⟨k, rfl⟩, hk⟩
  exact powerOfTwo_le_two_pow_iff.2 ((min_le_left _ _).trans ((le_max_left _ _).trans hk))

theorem monotone_powerOfTwo : Monotone powerOfTwo := by
  intro a b hab
  obtain ⟨k, -, hk⟩ := powerOfTwo_eq_two_pow b
  have hb : min b (2 ^ 63) ≤ 2 ^ k := powerOfTwo_le_two_pow_iff.1 hk.le
  rw [hk, powerOfTwo_le_two_pow_iff]
  omega

/-- A power of two of 64 bits is rounded already. -/
theorem powerOfTwo_two_pow (hm : m ≤ 63) : powerOfTwo (2 ^ m) = 2 ^ m :=
  (powerOfTwo_le_two_pow_iff.2 (min_le_left _ _)).antisymm
    (le_powerOfTwo (Nat.pow_le_pow_right Nat.two_pos hm))

theorem powerOfTwo_powerOfTwo (n : Nat) : powerOfTwo (powerOfTwo n) = powerOfTwo n := by
  obtain ⟨m, hm, h⟩ := powerOfTwo_eq_two_pow n
  rw [h, powerOfTwo_two_pow hm]

theorem roundsUp_powerOfTwo : RoundsUp powerOfTwo where
  isPowerOfTwo := isPowerOfTwo_powerOfTwo
  isLeast _ := isLeast_powerOfTwo
  eq_largest _ := powerOfTwo_of_lt
  monotone := monotone_powerOfTwo
  fixed := powerOfTwo_powerOfTwo

end HttpServer
