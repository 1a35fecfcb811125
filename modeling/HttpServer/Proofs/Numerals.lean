import HttpServer.Response
import Mathlib.Data.List.Basic
import Mathlib.Data.List.Induction

/-!
# Numerals

Among the runs of digits that denote a number, its numeral is the one in which no zero stands in
front of other digits (`IsNumeral`). The numeral of an integer has a minus sign in front of it
exactly if the integer is negative (`IsIntNumeral`).

A count of 64 bits is written into its buffer as its numeral, and read back from there as itself;
bytes are read as the number that they denote, held at `wordMax`, if they are a run of digits, and
not at all otherwise. A number of any type, signed or not, is written into a body as its numeral
(`Decimal.written_and_read`).
-/

namespace HttpServer.Decimal

variable {l : Bytes} {n : Nat} {z : Int}

/-! ## Numerals of natural numbers -/

/-- The digits denote `n`, and no zero stands in front of others. -/
structure IsNumeral (l : Bytes) (n : Nat) : Prop where
  ne_nil : l ≠ []
  digits : ∀ b ∈ l, isDigit b
  value_eq : value l = n
  no_leading_zero : l.head? = some 48 → l = [48]

theorem eq_zero_of_head?_ofNat (h : (ofNat n).head? = some 48) : ofNat n = [48] := by
  fun_induction ofNat n with
  | case1 n hn =>
    rw [List.head?_cons, Option.some_inj] at h
    rw [h]
  | case2 n hn ih =>
    rw [List.head?_append_of_ne_nil _ (ofNat_ne_nil _)] at h
    have hzero : value [48] = n / 10 := ih h ▸ value_ofNat (n / 10)
    have : value [48] = 0 := by decide
    omega

theorem isNumeral_ofNat (n : Nat) : IsNumeral (ofNat n) n :=
  ⟨ofNat_ne_nil n, fun _ => isDigit_of_mem_ofNat, value_ofNat n, eq_zero_of_head?_ofNat⟩

theorem digit_digitValue {b : UInt8} (h : isDigit b) : digit (digitValue b) = b := by
  simp only [isDigit, Bool.and_eq_true, decide_eq_true_eq, UInt8.le_iff_toNat_le,
    UInt8.reduceToNat] at h
  rw [digit, digitValue, Nat.add_sub_cancel' h.1, UInt8.ofNat_toNat]

/-- A number has no other numeral. -/
theorem IsNumeral.eq_ofNat (h : IsNumeral l n) : l = ofNat n := by
  induction l using List.reverseRecOn generalizing n with
  | nil => exact absurd rfl h.ne_nil
  | append_singleton l b ih =>
    have hb : isDigit b := h.digits b (by simp)
    have hlt := digitValue_lt hb
    have hvalue : value l * 10 + digitValue b = n := by rw [← value_concat, h.value_eq]
    have hlast : digit (n % 10) = b := by
      rw [← hvalue, Nat.mul_add_mod_self_right, Nat.mod_eq_of_lt hlt, digit_digitValue hb]
    by_cases hl : l = []
    · subst hl
      have hn : n < 10 := by simpa [value, ← hvalue] using hlt
      rw [ofNat, if_pos hn, ← hlast, Nat.mod_eq_of_lt hn, List.nil_append]
    · -- What stands before the last digit is a numeral as well, and not the one of zero.
      have hfirst : l.head? ≠ some 48 := fun h0 => by
        have hzero := h.no_leading_zero (by rw [List.head?_append_of_ne_nil _ hl, h0])
        exact hl (by simpa using congrArg List.length hzero)
      have hinit : IsNumeral l (n / 10) :=
        ⟨hl, fun c hc => h.digits c (by simp [hc]), by omega, fun h0 => absurd h0 hfirst⟩
      have hn : ¬n < 10 := fun hn => by
        have hzero := ih hinit
        rw [Nat.div_eq_of_lt hn, ofNat] at hzero
        exact hfirst (hzero ▸ rfl)
      rw [ofNat, if_neg hn, ← ih hinit, hlast]

theorem isNumeral_iff : IsNumeral l n ↔ l = ofNat n :=
  ⟨IsNumeral.eq_ofNat, fun h => h ▸ isNumeral_ofNat n⟩

/-! ## Numerals of integers -/

/-- A minus sign stands in front exactly if `z` is negative, and then its magnitude. -/
structure IsIntNumeral (l : Bytes) (z : Int) : Prop where
  minus_iff : l.head? = some 45 ↔ z < 0
  magnitude : IsNumeral (if z < 0 then l.tail else l) z.natAbs

theorem head?_ofNat_ne_minus (n : Nat) : (ofNat n).head? ≠ some 45 := fun h =>
  absurd (isDigit_of_mem_ofNat (List.mem_of_mem_head? h)) (by decide)

/-- An integer has exactly one numeral. -/
theorem isIntNumeral_iff : IsIntNumeral l z ↔ l = ofInt z := by
  cases z with
  | ofNat n =>
    have hsign : ¬Int.ofNat n < 0 := Int.not_lt.2 (Int.natCast_nonneg n)
    constructor
    · rintro ⟨-, hmagnitude⟩
      rw [if_neg hsign] at hmagnitude
      exact hmagnitude.eq_ofNat
    · rintro rfl
      refine ⟨iff_of_false (head?_ofNat_ne_minus n) hsign, ?_⟩
      rw [if_neg hsign]
      exact isNumeral_ofNat n
  | negSucc n =>
    have hsign := Int.negSucc_lt_zero n
    constructor
    · rintro ⟨hminus, hmagnitude⟩
      rw [if_pos hsign] at hmagnitude
      obtain ⟨digits, rfl⟩ := List.head?_eq_some_iff.1 (hminus.2 hsign)
      exact congrArg (45 :: ·) hmagnitude.eq_ofNat
    · rintro rfl
      refine ⟨iff_of_true rfl hsign, ?_⟩
      rw [if_pos hsign]
      exact isNumeral_ofNat (n + 1)

/-! ## Numerals in a body -/

/-- The values of a type are written into a body as the numerals of the integers that they stand
for. -/
def WritesNumerals {α : Type} [BodyValue α] (toInt : α → Int) : Prop :=
  ∀ v l, l = BodyValue.bytes v ↔ IsIntNumeral l (toInt v)

theorem writesNumerals_unsigned {α : Type} [BodyValue α] {toNat : α → Nat} {f : α → UInt64}
    (hbytes : ∀ v : α, BodyValue.bytes v = ofWord (f v)) (hf : ∀ v, (f v).toNat = toNat v) :
    WritesNumerals fun v : α => (toNat v : Int) := by
  intro v l
  rw [hbytes, ofWord_eq, hf]
  exact (isIntNumeral_iff : _ ↔ l = ofInt (toNat v)).symm

theorem writesNumerals_signed {α : Type} [BodyValue α] {w : Nat} {f : α → BitVec w} (hw : w ≤ 64)
    (hbytes : ∀ v : α, BodyValue.bytes v = ofSigned (f v)) :
    WritesNumerals fun v : α => (f v).toInt := by
  intro v l
  rw [hbytes, ofSigned_eq hw]
  exact isIntNumeral_iff.symm

/-- The least number of a width is written like any other. -/
example : BodyValue.bytes (-128 : Int8) = utf8 "-128" := by decide

/-! ## Numerals that are read -/

/-- A run of digits is read as the number that it denotes, held at `wordMax`, and nothing else is
read. -/
theorem read?_eq (l : Bytes) :
    read? l = if l ≠ [] ∧ l.all isDigit then some (min (value l) wordMax) else none := by
  split
  · rename_i h
    exact read?_eq_some_iff.2 ⟨h.1, List.all_eq_true.1 h.2, rfl⟩
  · rename_i h
    refine Option.eq_none_iff_forall_ne_some.2 fun n hn => h ?_
    obtain ⟨hne, hdigits, -⟩ := read?_eq_some_iff.1 hn
    exact ⟨hne, List.all_eq_true.2 hdigits⟩

theorem read?_ofWord (n : UInt64) : read? (ofWord n) = some n.toNat := by
  have hle : n.toNat ≤ wordMax := Nat.le_of_lt_succ n.toNat_lt
  rw [ofWord_eq, read?_ofNat, Nat.min_eq_left hle]

/-- The numeral of a count is written without leaving the twenty cells of its buffer, where it
stands at the end, and is read back as the count. Of all bytes, a run of digits is read as the
number that it denotes, held at the largest count, and nothing else is read. Numbers of every
type, the least ones of the signed types included, are written into a body as their numerals. -/
theorem written_and_read :
    (∀ n, ∃ cells start, buffer? n = some (cells, start) ∧ cells.length = 20 ∧ start < 20 ∧
      (∀ l, l = cells.drop start ↔ IsNumeral l n.toNat) ∧ ofWord n = cells.drop start ∧
      read? (cells.drop start) = some n.toNat) ∧
    (∀ l, read? l = if l ≠ [] ∧ l.all isDigit then some (min (value l) wordMax) else none) ∧
    (WritesNumerals (fun v : UInt8 => (v.toNat : Int)) ∧
      WritesNumerals (fun v : UInt16 => (v.toNat : Int)) ∧
      WritesNumerals (fun v : UInt32 => (v.toNat : Int)) ∧
      WritesNumerals (fun v : UInt64 => (v.toNat : Int))) ∧
    WritesNumerals Int8.toInt ∧ WritesNumerals Int16.toInt ∧ WritesNumerals Int32.toInt ∧
      WritesNumerals Int64.toInt := by
  refine ⟨fun n => ?_, read?_eq, ⟨?_, ?_, ?_, ?_⟩, ?_, ?_, ?_, ?_⟩
  · obtain ⟨cells, start, hbuffer, hlen, hstart, hdrop⟩ := buffer?_eq n
    have hword : ofWord n = cells.drop start := by rw [ofWord_eq, hdrop]
    refine ⟨cells, start, hbuffer, hlen, hstart, fun l => ?_, hword, ?_⟩
    · rw [hdrop, isNumeral_iff]
    · rw [← hword, read?_ofWord]
  · exact writesNumerals_unsigned (fun _ => rfl) UInt8.toNat_toUInt64
  · exact writesNumerals_unsigned (fun _ => rfl) UInt16.toNat_toUInt64
  · exact writesNumerals_unsigned (fun _ => rfl) UInt32.toNat_toUInt64
  · exact writesNumerals_unsigned (fun _ => rfl) fun _ => rfl
  · exact writesNumerals_signed (by decide) fun _ => rfl
  · exact writesNumerals_signed (by decide) fun _ => rfl
  · exact writesNumerals_signed (by decide) fun _ => rfl
  · exact writesNumerals_signed (by decide) fun _ => rfl

end HttpServer.Decimal
