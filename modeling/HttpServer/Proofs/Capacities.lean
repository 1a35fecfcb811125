import HttpServer.Config
import HttpServer.Proofs.Ring.Slots

/-!
# Capacities

A requested capacity is rounded up to a power of two, and what is rounded already is left as it
is. So there is nothing left to be settled in a configuration that was normalized once, and a ring
of any requested capacity reduces its positions by a mask (`capacity_rounded`).
-/

namespace HttpServer

/-! ## Configurations -/

namespace ServerConfig

variable {m : Nat} (processors : Nat) (c : ServerConfig)

theorem capacity_normalized : ∃ m ≤ 63, (c.normalized processors).capacity = 2 ^ m := by
  by_cases h : c.capacity = 0
  · exact ⟨10, by decide, if_pos h⟩
  · rw [normalized, if_neg h]
    exact powerOfTwo_eq_two_pow c.capacity

theorem threads_normalized : (c.normalized processors).threads ≠ 0 := by
  simp only [normalized]
  split
  · omega
  · assumption

/-- A configuration is left as it is if its capacity is a power of two and it has workers. -/
theorem normalized_eq_self {c : ServerConfig} (hthreads : c.threads ≠ 0) (hm : m ≤ 63)
    (hcapacity : c.capacity = 2 ^ m) : c.normalized processors = c := by
  have hpos := Nat.two_pow_pos m
  obtain ⟨kind, port, threads, capacity⟩ := c
  simp only at hthreads hcapacity
  subst hcapacity
  simp only [normalized, if_neg hthreads, if_neg hpos.ne', powerOfTwo_two_pow hm]

end ServerConfig

/-! ## Rings -/

namespace Ring

variable {α : Type} {r : Ring α}

theorem IsSized.isPowerOfTwo (hr : r.IsSized) : r.capacity.isPowerOfTwo := by
  obtain ⟨m, -, -, hm⟩ := hr
  exact ⟨m, hm⟩

/-- What reduces a position to the number of its slot is a mask. -/
theorem exists_mask (hr : r.IsSized) :
    ∃ mask : UInt64, mask.toNat + 1 = r.capacity ∧
      ∀ pos, r.index pos = (pos &&& mask).toNat ∧
        (pos &&& mask).toNat = pos.toNat % r.capacity := by
  have htwo := hr.two_le
  refine ⟨.ofNat (r.capacity - 1), ?_, fun pos => ⟨rfl, index_eq_mod hr pos⟩⟩
  rw [toNat_mask hr, Nat.sub_add_cancel (by omega)]

end Ring

/-- Capacities are rounded up to powers of two of 64 bits. Normalizing a configuration that was
normalized changes nothing, whatever the number of processors was then and is now, and its
capacity is a power of two. The positions of a ring of any requested capacity are masked, which
gives the remainder by its capacity. -/
theorem capacity_rounded :
    RoundsUp powerOfTwo ∧
    (∀ (c : ServerConfig) processors, (c.normalized processors).capacity.isPowerOfTwo ∧
      ∀ processors', (c.normalized processors).normalized processors' = c.normalized processors) ∧
    ∀ (α : Type) n, let r : Ring α := Ring.withCapacity n
      r.capacity.isPowerOfTwo ∧ r.capacity = max (powerOfTwo n) 2 ∧
        ∃ mask : UInt64, mask.toNat + 1 = r.capacity ∧
          ∀ pos, r.index pos = (pos &&& mask).toNat ∧
            (pos &&& mask).toNat = pos.toNat % r.capacity := by
  refine ⟨roundsUp_powerOfTwo, fun c processors => ?_, fun α n => ?_⟩
  · have hthreads := c.threads_normalized processors
    obtain ⟨m, hm, hcapacity⟩ := c.capacity_normalized processors
    exact ⟨⟨m, hcapacity⟩, fun processors' =>
      ServerConfig.normalized_eq_self processors' hthreads hm hcapacity⟩
  · have hr : (Ring.withCapacity n : Ring α).IsSized := Ring.isSized_withCapacity n
    exact ⟨hr.isPowerOfTwo, Ring.capacity_withCapacity n, Ring.exists_mask hr⟩

end HttpServer
