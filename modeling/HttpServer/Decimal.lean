import HttpServer.Bytes
import HttpServer.Word

/-!
# Decimal numerals

Lengths and status codes are written as decimal numerals without leading zeros, signed
numbers with a minus sign in front. Reading accepts any non-empty run of digits and holds
the result at `wordMax`, so that an overlong length is a large length and never a small
one. `value` is the number that a run of digits denotes, without that bound.
-/

namespace HttpServer.Decimal

/-- The digit byte for a number below ten. -/
def digit (n : Nat) : UInt8 := UInt8.ofNat (48 + n)

/-- The number that a digit byte stands for. -/
def digitValue (b : UInt8) : Nat := b.toNat - 48

/-- The numeral of a natural number. -/
def ofNat (n : Nat) : Bytes :=
  if n < 10 then [digit n] else ofNat (n / 10) ++ [digit (n % 10)]

/-- The numeral of an integer : a minus sign exactly when it is negative. -/
def ofInt : Int → Bytes
  | .ofNat n => ofNat n
  | .negSucc n => 45 :: ofNat (n + 1)

/-- The number that a run of digits denotes. -/
def value (l : Bytes) : Nat := l.foldl (fun n b => n * 10 + digitValue b) 0

/-- Reads on from the number read so far; `none` at a byte that is no digit. -/
def readFrom (n : Nat) : Bytes → Option Nat
  | [] => some n
  | b :: l =>
    if isDigit b then readFrom (saturatingAdd (saturatingMul n 10) (digitValue b)) l else none

/-- The number written by a non-empty run of digits, held at `wordMax`. -/
def read? (l : Bytes) : Option Nat := if l.isEmpty then none else readFrom 0 l

/-- A digit more has the same effect whether the number is held before or after. -/
theorem saturatingAdd_saturatingMul (n d : Nat) :
    saturatingAdd (saturatingMul (min n wordMax) 10) d = min (n * 10 + d) wordMax := by
  simp only [saturatingAdd, saturatingMul, wordMax]
  omega

theorem readFrom_of_digits {l : Bytes} (h : ∀ b ∈ l, isDigit b) (n : Nat) :
    readFrom (min n wordMax) l =
      some (min (l.foldl (fun n b => n * 10 + digitValue b) n) wordMax) := by
  induction l generalizing n with
  | nil => rfl
  | cons b l ih =>
    rw [readFrom, if_pos (h b (by simp)), saturatingAdd_saturatingMul,
      ih fun c hc => h c (by simp [hc])]
    rfl

theorem digits_of_readFrom {l : Bytes} {n m : Nat} (h : readFrom n l = some m) :
    ∀ b ∈ l, isDigit b := by
  induction l generalizing n with
  | nil => simp
  | cons b l ih =>
    rw [readFrom] at h
    split at h
    · rename_i hb
      simpa [hb] using ih h
    · contradiction

/-- A run of digits is read as the number it denotes, held at `wordMax`. -/
theorem read?_eq_some_iff {l : Bytes} {n : Nat} :
    read? l = some n ↔ l ≠ [] ∧ (∀ b ∈ l, isDigit b) ∧ n = min (value l) wordMax := by
  by_cases h : l = []
  · simp [read?, h]
  have hf (hd : ∀ b ∈ l, isDigit b) : readFrom 0 l = some (min (value l) wordMax) := by
    have := readFrom_of_digits hd 0
    rwa [Nat.zero_min] at this
  rw [read?, if_neg (by simpa using h)]
  constructor
  · intro hr
    have hd := digits_of_readFrom hr
    rw [hf hd] at hr
    exact ⟨h, hd, (Option.some.inj hr).symm⟩
  · rintro ⟨-, hd, rfl⟩
    exact hf hd

/-! ## Numerals that are written -/

theorem digitValue_digit {n : Nat} (h : n < 10) : digitValue (digit n) = n := by
  rw [digitValue, digit, UInt8.toNat_ofNat']
  omega

theorem isDigit_digit {n : Nat} (h : n < 10) : isDigit (digit n) := by
  simp only [isDigit, digit, Bool.and_eq_true, decide_eq_true_eq, UInt8.le_iff_toNat_le,
    UInt8.toNat_ofNat']
  constructor
  all_goals simp; omega

theorem isDigit_of_mem_ofNat {n : Nat} {b : UInt8} (h : b ∈ ofNat n) : isDigit b := by
  fun_induction ofNat n with
  | case1 n hn =>
    rw [List.mem_singleton.1 h]
    exact isDigit_digit hn
  | case2 n hn ih =>
    rcases List.mem_append.1 h with h | h
    · exact ih h
    · rw [List.mem_singleton.1 h]
      exact isDigit_digit (Nat.mod_lt n (by decide))

theorem ofNat_ne_nil (n : Nat) : ofNat n ≠ [] := by
  unfold ofNat
  split <;> simp

theorem value_concat (l : Bytes) (b : UInt8) :
    value (l ++ [b]) = value l * 10 + digitValue b := by
  simp [value]

/-- The numeral of a number denotes that number. -/
theorem value_ofNat (n : Nat) : value (ofNat n) = n := by
  fun_induction ofNat n with
  | case1 n hn => simpa [value] using digitValue_digit hn
  | case2 n hn ih =>
    rw [value_concat, ih, digitValue_digit (Nat.mod_lt n (by decide))]
    omega

/-- A numeral is read back as its number, held at `wordMax`. -/
theorem read?_ofNat (n : Nat) : read? (ofNat n) = some (min n wordMax) :=
  read?_eq_some_iff.2 ⟨ofNat_ne_nil n, fun _ => isDigit_of_mem_ofNat, by rw [value_ofNat]⟩

/-! ## Lengths of numerals -/

theorem digitValue_lt {b : UInt8} (h : isDigit b) : digitValue b < 10 := by
  simp only [isDigit, Bool.and_eq_true, decide_eq_true_eq, UInt8.le_iff_toNat_le,
    UInt8.reduceToNat] at h
  rw [digitValue]
  omega

/-- No run of digits that denotes at least a number is shorter than its numeral. -/
theorem length_ofNat_le_of_le_value {n : Nat} {l : Bytes} (hne : l ≠ [])
    (hd : ∀ b ∈ l, isDigit b) (hn : n ≤ value l) : (ofNat n).length ≤ l.length := by
  fun_induction ofNat n generalizing l with
  | case1 n h => exact List.length_pos_iff.2 hne
  | case2 n h ih =>
    obtain ⟨l, b, rfl⟩ := (List.eq_nil_or_concat l).resolve_left hne
    rw [List.concat_eq_append] at hd hn ⊢
    have hb := digitValue_lt (hd b (by simp))
    rw [value_concat] at hn
    have hne' : l ≠ [] := by
      rintro rfl
      simp only [value, List.foldl_nil] at hn
      omega
    have hlen := ih hne' (fun c hc => hd c (by simp [hc])) (by omega)
    simpa using hlen

end HttpServer.Decimal
