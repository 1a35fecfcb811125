import HttpServer.Decimal

/-!
# Numerals in a buffer

A count of 64 bits has at most twenty digits. Its numeral is written into a buffer of that many
cells, from the last digit to the first, and what is handed out is the buffer from the first
digit on. The buffer is never left, and the numeral is the one of `ofNat` (`ofWord?_eq`), with
which the lines of a head are written.

A signed number of any width is written as its magnitude, behind a minus sign if it is negative.
The magnitude of the least number of a width is no signed number of that width any more, but it
is still an unsigned one, so that the numeral is the one of `ofInt` (`ofSigned_eq`).
-/

namespace HttpServer.Decimal

/-! ## Counts -/

/-- Writes the digits of `n` into the cells before place `i`, the last digit first; zero has
none. The answer is the cells and the place of the first digit. -/
def writeBefore? (cells : Bytes) (i : Nat) (n : UInt64) : Option (Bytes × Nat) :=
  if n = 0 then some (cells, i)
  else
    match i with
    | 0 => none
    | i + 1 =>
      (overwrite? cells i [48 + (n % 10).toUInt8]).bind fun cells => writeBefore? cells i (n / 10)

/-- The buffer of a count with its numeral at the end, and the place where the numeral starts. -/
def buffer? (n : UInt64) : Option (Bytes × Nat) :=
  let cells := List.replicate 20 48
  if n = 0 then some (cells, 19) else writeBefore? cells 20 n

/-- The numeral of a count, read off its buffer. -/
def ofWord? (n : UInt64) : Option Bytes :=
  (buffer? n).bind fun (cells, start) => slice? cells start cells.length

/-- The digits of a number, of which zero has none. -/
def significant (n : Nat) : Bytes := if n = 0 then [] else ofNat n

theorem significant_of_ne_zero {n : Nat} (h : n ≠ 0) :
    significant n = significant (n / 10) ++ [digit (n % 10)] := by
  rw [significant, if_neg h, significant, ofNat]
  by_cases hn : n < 10
  · rw [if_pos hn, if_pos (Nat.div_eq_of_lt hn), Nat.mod_eq_of_lt hn, List.nil_append]
  · rw [if_neg hn, if_neg (by omega)]

theorem toNat_ne_zero {n : UInt64} (h : n ≠ 0) : n.toNat ≠ 0 :=
  fun h0 => h (UInt64.toNat_inj.1 h0)

/-- The last digit of a count is computed without leaving its 64 bits. -/
theorem digit_toNat_mod (n : UInt64) : digit (n.toNat % 10) = 48 + (n % 10).toUInt8 := by
  rw [← UInt8.toNat_inj, digit, UInt8.toNat_add, UInt64.toNat_toUInt8, UInt64.toNat_mod,
    UInt8.toNat_ofNat']
  simp

/-- Where there is room for the digits, they are written in front of what stands behind. -/
theorem writeBefore?_eq {cells : Bytes} {i : Nat} {n : UInt64} (hi : i ≤ cells.length)
    (hn : (significant n.toNat).length ≤ i) :
    ∃ cells', writeBefore? cells i n = some (cells', i - (significant n.toNat).length) ∧
      cells'.length = cells.length ∧
      cells'.drop (i - (significant n.toNat).length) = significant n.toNat ++ cells.drop i := by
  fun_induction writeBefore? cells i n with
  | case1 i cells => exact ⟨cells, rfl, rfl, rfl⟩
  | case2 n cells h0 =>
    rw [significant_of_ne_zero (toNat_ne_zero h0), List.length_append] at hn
    contradiction
  | case3 cells n h0 i ih =>
    rw [significant_of_ne_zero (toNat_ne_zero h0), List.length_append,
      List.length_singleton] at hn ⊢
    obtain ⟨cells₁, hwrite, hlen₁, -⟩ := overwrite?_eq (x := [48 + (n % 10).toUInt8]) hi
    have hdiv : (n / 10).toNat = n.toNat / 10 := UInt64.toNat_div n 10
    obtain ⟨cells', hrest, hlen, hdrop⟩ := ih cells₁ (by omega)
      (hdiv ▸ Nat.le_of_add_le_add_right hn)
    rw [hdiv] at hrest hdrop
    rw [hwrite, Option.bind_some, Nat.succ_eq_add_one, Nat.add_sub_add_right]
    refine ⟨cells', hrest, hlen.trans hlen₁, ?_⟩
    rw [hdrop, drop_of_overwrite? hwrite, digit_toNat_mod, List.append_assoc]
    rfl

/-- No count has more than twenty digits. -/
theorem length_ofNat_le (n : UInt64) : (ofNat n.toNat).length ≤ 20 := by
  have hdigits : ∀ b ∈ List.replicate 20 (57 : UInt8), isDigit b := fun b hb => by
    rw [List.eq_of_mem_replicate hb]
    decide
  have hmax : n.toNat ≤ value (List.replicate 20 57) :=
    Nat.le_of_lt (Nat.lt_of_lt_of_le n.toNat_lt (by decide))
  simpa using length_ofNat_le_of_le_value (by decide) hdigits hmax

/-- The buffer of a count is never left, and its numeral stands at the end of it. -/
theorem buffer?_eq (n : UInt64) :
    ∃ cells start, buffer? n = some (cells, start) ∧ cells.length = 20 ∧ start < 20 ∧
      cells.drop start = ofNat n.toNat := by
  unfold buffer?
  by_cases h0 : n = 0
  · subst h0
    exact ⟨_, _, rfl, rfl, by decide, by rw [ofNat]; rfl⟩
  have hdigits : significant n.toNat = ofNat n.toNat := if_neg (toNat_ne_zero h0)
  have hpos := List.length_pos_iff.2 (ofNat_ne_nil n.toNat)
  have hroom : 20 ≤ (List.replicate 20 (48 : UInt8)).length := by decide
  have hfits : (significant n.toNat).length ≤ 20 := hdigits ▸ length_ofNat_le n
  obtain ⟨cells, hwrite, hlen, hdrop⟩ := writeBefore?_eq hroom hfits
  rw [hdigits] at hwrite hdrop
  refine ⟨cells, _, by simpa [h0] using hwrite, by simpa using hlen, by omega, ?_⟩
  simpa using hdrop

/-- One cell less would not do for the largest count. -/
example : writeBefore? (List.replicate 19 48) 19 0xFFFFFFFFFFFFFFFF = none := by decide +kernel

theorem ofWord?_eq (n : UInt64) : ofWord? n = some (ofNat n.toNat) := by
  obtain ⟨cells, start, hbuffer, hlen, hstart, hdrop⟩ := buffer?_eq n
  have hslice : slice? cells start cells.length = some (cells.drop start) := by
    rw [slice?_eq (by omega) (Nat.le_refl _), List.take_length]
  rw [ofWord?, hbuffer, Option.bind_some, ← hdrop, ← hslice]

/-- The numeral of a count. -/
def ofWord (n : UInt64) : Bytes :=
  (ofWord? n).get (by rw [ofWord?_eq]; rfl)

@[simp] theorem ofWord_eq (n : UInt64) : ofWord n = ofNat n.toNat := by
  simp only [ofWord, ofWord?_eq, Option.get_some]

/-! ## Signed numbers -/

variable {w : Nat}

/-- The magnitude of a signed number, as a count. -/
def magnitude (v : BitVec w) : UInt64 := .ofBitVec (v.abs.setWidth 64)

/-- The numeral of a signed number. -/
def ofSigned (v : BitVec w) : Bytes :=
  if v.slt 0#w then 45 :: ofWord (magnitude v) else ofWord (magnitude v)

/-- The magnitude of every number of up to 64 bits is a count, that of the least one included. -/
theorem toNat_magnitude (hw : w ≤ 64) (v : BitVec w) : (magnitude v).toNat = v.toInt.natAbs := by
  have hlt : v.abs.toNat < 2 ^ 64 :=
    Nat.lt_of_lt_of_le v.abs.isLt (Nat.pow_le_pow_right Nat.two_pos hw)
  rw [magnitude, UInt64.toNat_ofBitVec, BitVec.toNat_setWidth, Nat.mod_eq_of_lt hlt,
    BitVec.toNat_abs, BitVec.toInt_eq_msb_cond]
  have := v.isLt
  split
  · omega
  · rfl

theorem ofSigned_eq (hw : w ≤ 64) (v : BitVec w) : ofSigned v = ofInt v.toInt := by
  have hsign : v.slt 0#w = true ↔ v.toInt < 0 := by
    rw [BitVec.slt_iff_toInt_lt, BitVec.toInt_zero]
  simp only [ofSigned, ofWord_eq, toNat_magnitude hw, hsign]
  cases v.toInt with
  | ofNat n => exact if_neg (Int.not_lt.2 (Int.natCast_nonneg n))
  | negSucc n => exact if_pos (Int.negSucc_lt_zero n)

end HttpServer.Decimal
