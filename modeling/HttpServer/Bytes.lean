/-!
# Bytes and their classes

Everything that travels over a connection is a list of bytes. This file fixes how a piece
of program text becomes bytes (its UTF-8 form) and which bytes may stand in a method, a
path, a header key and a header value. The classes are predicates on single bytes, so a
parser that reads one byte at a time and a parser that reads a line at a time ask the
same question.

A buffer is a list of bytes as well, read and written in stretches. A stretch that is not
inside the buffer has no cells (`slice?`, `overwrite?`), so a call that would leave the
buffer has no answer. Neither has one that asks for more room than there can be
(`reserve?`).
-/

namespace HttpServer

/-- A stretch of bytes in wire order. -/
abbrev Bytes := List UInt8

/-- The UTF-8 form of a text. -/
def utf8 (s : String) : Bytes := s.toByteArray.data.toList

/-! ## Bytes with a name -/

/-- The byte that ends every line. -/
def lf : UInt8 := 10

/-- The byte that stands before `lf` at the end of every line. -/
def cr : UInt8 := 13

/-- The blank between the words of a line. -/
def sp : UInt8 := 32

/-- The byte that separates path segments. -/
def slash : UInt8 := 47

/-- The byte between a header key and its value. -/
def colon : UInt8 := 58

/-- The two bytes that end a line. -/
def crlf : Bytes := [cr, lf]

/-! ## Classes -/

/-- The letters `A` to `Z`. -/
def isUpper (b : UInt8) : Bool := 65 ≤ b && b ≤ 90

/-- The letters `a` to `z`. -/
def isLower (b : UInt8) : Bool := 97 ≤ b && b ≤ 122

/-- The ASCII letters, the only bytes a method is made of. -/
def isAlpha (b : UInt8) : Bool := isUpper b || isLower b

/-- The digits `0` to `9`. -/
def isDigit (b : UInt8) : Bool := 48 ≤ b && b ≤ 57

/-- ASCII letters and digits. -/
def isAlphanum (b : UInt8) : Bool := isAlpha b || isDigit b

/-- The marks that may stand in a path beside letters and digits. -/
def pathMarks : Bytes := utf8 "-._~:/?#[]@!$&'()*+,;="

/-- The bytes of a path. -/
def isPathByte (b : UInt8) : Bool := isAlphanum b || pathMarks.contains b

/-- The bytes of a header key : letters, digits and the hyphen. -/
def isKeyByte (b : UInt8) : Bool := isAlphanum b || b == 45

/-- The bytes of a header value : printable ASCII, the blank and the tab. -/
def isValueByte (b : UInt8) : Bool := (32 ≤ b && b ≤ 126) || b == 9

/-- The ASCII bytes. -/
def isAscii (b : UInt8) : Bool := b < 0x80

/-- The lower-case form of an ASCII letter; every other byte is itself. -/
def toLower (b : UInt8) : UInt8 := if isUpper b then b + 32 else b

/-- Equality of two stretches up to the case of ASCII letters. -/
def eqIgnoreCase (a b : Bytes) : Bool := a.map toLower == b.map toLower

theorem length_eq_of_eqIgnoreCase {a b : Bytes} (h : eqIgnoreCase a b = true) :
    a.length = b.length := by
  simpa using congrArg List.length (eq_of_beq h)

theorem isAscii_of_isAlphanum {b : UInt8} (h : isAlphanum b) : isAscii b := by
  simp only [isAlphanum, isAlpha, isUpper, isLower, isDigit, isAscii, Bool.or_eq_true,
    Bool.and_eq_true, decide_eq_true_eq, UInt8.le_iff_toNat_le, UInt8.lt_iff_toNat_lt,
    UInt8.reduceToNat] at h ⊢
  omega

theorem isAscii_of_isAlpha {b : UInt8} (h : isAlpha b) : isAscii b :=
  isAscii_of_isAlphanum (by simp [isAlphanum, h])

theorem isAscii_of_isPathByte {b : UInt8} (h : isPathByte b) : isAscii b := by
  rw [isPathByte, Bool.or_eq_true, List.contains_iff_mem] at h
  rcases h with h | h
  · exact isAscii_of_isAlphanum h
  · exact List.all_eq_true.1 (by decide : pathMarks.all isAscii = true) b h

theorem isAscii_of_isKeyByte {b : UInt8} (h : isKeyByte b) : isAscii b := by
  rw [isKeyByte, Bool.or_eq_true, beq_iff_eq] at h
  rcases h with h | rfl
  · exact isAscii_of_isAlphanum h
  · decide

theorem isAscii_of_isValueByte {b : UInt8} (h : isValueByte b) : isAscii b := by
  simp only [isValueByte, isAscii, Bool.or_eq_true, Bool.and_eq_true, decide_eq_true_eq,
    beq_iff_eq, ← UInt8.toNat_inj, UInt8.le_iff_toNat_le, UInt8.lt_iff_toNat_lt,
    UInt8.reduceToNat] at h ⊢
  omega

theorem isValueByte_of_isDigit {b : UInt8} (h : isDigit b) : isValueByte b := by
  simp only [isDigit, isValueByte, Bool.or_eq_true, Bool.and_eq_true, decide_eq_true_eq,
    UInt8.le_iff_toNat_le, UInt8.reduceToNat] at h ⊢
  omega

/-! ## Cutting -/

/-- What stands before the first occurrence of `b` and what stands after it, if there is
one. -/
def splitAtByte? (b : UInt8) : Bytes → Option (Bytes × Bytes)
  | [] => none
  | c :: l => if c = b then some ([], l) else (splitAtByte? b l).map fun p => (c :: p.1, p.2)

theorem splitAtByte?_eq_some {b : UInt8} {l pre post : Bytes}
    (h : splitAtByte? b l = some (pre, post)) : l = pre ++ b :: post ∧ b ∉ pre := by
  induction l generalizing pre with
  | nil => simp [splitAtByte?] at h
  | cons c l ih =>
    by_cases hc : c = b
    · simp [splitAtByte?, hc] at h
      obtain ⟨rfl, rfl⟩ := h
      simp [hc]
    · simp only [splitAtByte?, hc, if_false, Option.map_eq_some_iff] at h
      obtain ⟨⟨p, q⟩, hpq, heq⟩ := h
      obtain ⟨rfl, rfl⟩ := Prod.mk.inj heq
      obtain ⟨rfl, hb⟩ := ih hpq
      simp [hb, Ne.symm hc]

theorem splitAtByte?_eq_none {b : UInt8} {l : Bytes} : splitAtByte? b l = none ↔ b ∉ l := by
  induction l with
  | nil => simp [splitAtByte?]
  | cons c l ih =>
    by_cases hc : c = b
    · simp [splitAtByte?, hc]
    · simp [splitAtByte?, hc, ih, Ne.symm hc]

theorem splitAtByte?_append {b : UInt8} {pre post : Bytes} (h : b ∉ pre) :
    splitAtByte? b (pre ++ b :: post) = some (pre, post) := by
  induction pre with
  | nil => simp [splitAtByte?]
  | cons c pre ih =>
    rw [List.mem_cons, not_or] at h
    rw [List.cons_append, splitAtByte?, if_neg (Ne.symm h.1), ih h.2]
    rfl

/-- A byte outside a class is not among bytes of the class. -/
theorem not_mem_of_class {p : UInt8 → Bool} {b : UInt8} {l : Bytes} (hb : p b = false)
    (hl : ∀ c ∈ l, p c) : b ∉ l :=
  fun hm => by simpa [hb] using hl b hm

/-! ## Room -/

/-- The most bytes that one piece of memory can have. -/
def maxPiece : Nat := 0x7FFFFFFFFFFFFFFF

/-- Makes room for `n` bytes behind those that are held. It is a panic to ask for more than one
piece of memory can have; that there is memory for fewer is taken for granted. -/
def reserve? (held n : Nat) : Option Unit := if held + n ≤ maxPiece then some () else none

@[simp] theorem reserve?_eq_none_iff {held n : Nat} :
    reserve? held n = none ↔ maxPiece < held + n := by
  simp [reserve?]

/-! ## Stretches of a buffer -/

/-- The cells from position `i` up to position `j`, if they are in the buffer. -/
def slice? (cells : Bytes) (i j : Nat) : Option Bytes :=
  if i ≤ j ∧ j ≤ cells.length then some ((cells.take j).drop i) else none

/-- The cells with others written over them from position `i` on, if there is room. -/
def overwrite? (cells : Bytes) (i : Nat) (x : Bytes) : Option Bytes :=
  if i + x.length ≤ cells.length then some (cells.take i ++ x ++ cells.drop (i + x.length))
  else none

theorem slice?_eq {cells : Bytes} {i j : Nat} (hi : i ≤ j) (hj : j ≤ cells.length) :
    slice? cells i j = some ((cells.take j).drop i) :=
  if_pos ⟨hi, hj⟩

theorem le_of_slice? {cells x : Bytes} {i j : Nat} (h : slice? cells i j = some x) :
    i ≤ j ∧ j ≤ cells.length := by
  unfold slice? at h
  split at h
  · assumption
  · contradiction

theorem overwrite?_eq {cells x : Bytes} {i : Nat} (h : i + x.length ≤ cells.length) :
    ∃ cells', overwrite? cells i x = some cells' ∧ cells'.length = cells.length ∧
      cells'.take (i + x.length) = cells.take i ++ x := by
  have hlen : (cells.take i ++ x).length = i + x.length := by
    rw [List.length_append, List.length_take]
    omega
  refine ⟨_, if_pos h, ?_, ?_⟩
  · rw [List.length_append, hlen, List.length_drop]
    omega
  · rw [← hlen, List.take_left]

/-- What is written is followed by the cells behind it. -/
theorem drop_of_overwrite? {cells cells' x : Bytes} {i : Nat}
    (h : overwrite? cells i x = some cells') : cells'.drop i = x ++ cells.drop (i + x.length) := by
  unfold overwrite? at h
  split at h
  · cases h
    have hlen : (cells.take i).length = i := by
      rw [List.length_take]
      omega
    rw [List.append_assoc]
    exact List.drop_left' hlen
  · contradiction

end HttpServer
