import HttpServer.Text

/-!
# Text and back

A text in its UTF-8 form is read back as the same text (`Text.decode_utf8`). The bytes of one
character are read as one chunk whatever follows them (`Text.chunk_utf8EncodeChar`) : the
first byte tells how many there are, and each byte after it holds six bits of the number of
the character (`Text.tailByte`).
-/

namespace HttpServer

theorem utf8_ofList (cs : List Char) :
    utf8 (String.ofList cs) = cs.flatMap String.utf8EncodeChar := by
  rw [utf8, String.toByteArray_ofList, List.utf8Encode, List.toList_data_toByteArray]

theorem utf8_append (s t : String) : utf8 (s ++ t) = utf8 s ++ utf8 t := by
  simp [utf8, String.toByteArray_append]

namespace Text

/-! ## Bytes after the first -/

/-- The byte that holds the last six bits of a number. -/
def tailByte (n : Nat) : UInt8 := UInt8.ofNat (n % 64 + 0x80)

theorem toNat_tailByte (n : Nat) : (tailByte n).toNat = n % 64 + 0x80 :=
  UInt8.toNat_ofNat_of_lt' (by simp only [UInt8.size]; omega)

theorem isContinuation_tailByte (n : Nat) : isContinuation (tailByte n) := by
  simp only [isContinuation, Bool.and_eq_true, decide_eq_true_eq, UInt8.le_iff_toNat_le,
    toNat_tailByte, UInt8.reduceToNat]
  omega

theorem payload_tailByte (n : Nat) : payload (tailByte n) = n % 64 := by
  rw [payload, toNat_tailByte]
  omega

variable {b c d e : UInt8} {rest : Bytes} {n : Nat}

/-- The second byte of a number that is no surrogate and needs three bytes. -/
theorem isSecondOfThree_tailByte (hb : b.toNat = n / 4096 % 16 + 0xE0) (hmin : 0x7FF < n)
    (hmax : n < 0xD800 ∨ 0xDFFF < n ∧ n ≤ 0xFFFF) : isSecondOfThree b (tailByte (n / 64)) := by
  simp only [isSecondOfThree, ← UInt8.toNat_inj, UInt8.le_iff_toNat_le, hb, toNat_tailByte,
    UInt8.reduceToNat, Bool.and_eq_true, decide_eq_true_eq]
  split <;> split <;> simp only [UInt8.reduceToNat] <;> omega

/-- The second byte of the number of a character that needs four bytes. -/
theorem isSecondOfFour_tailByte (hb : b.toNat = n / 262144 % 8 + 0xF0) (hmin : 0xFFFF < n)
    (hmax : n < 0x110000) : isSecondOfFour b (tailByte (n / 4096)) := by
  simp only [isSecondOfFour, ← UInt8.toNat_inj, UInt8.le_iff_toNat_le, hb, toNat_tailByte,
    UInt8.reduceToNat, Bool.and_eq_true, decide_eq_true_eq]
  split <;> split <;> simp only [UInt8.reduceToNat] <;> omega

/-! ## Chunks of each length -/

theorem chunk_one (hb : b.toNat < 0x80) : chunk b rest = ⟨some (Char.ofNat b.toNat), 0⟩ := by
  unfold chunk
  rw [if_pos (UInt8.lt_iff_toNat_lt.2 hb)]

theorem chunk_two (hb : 0xC2 ≤ b.toNat ∧ b.toNat ≤ 0xDF) (hc : isContinuation c) :
    chunk b (c :: rest) = ⟨some (Char.ofNat (b.toNat % 32 * 64 + payload c)), 1⟩ := by
  unfold chunk
  simp only [UInt8.lt_iff_toNat_lt, UInt8.le_iff_toNat_le, UInt8.reduceToNat]
  rw [if_neg (by omega), if_pos (by simpa using hb), if_pos hc]

theorem chunk_three (hb : 0xE0 ≤ b.toNat ∧ b.toNat ≤ 0xEF) (hc : isSecondOfThree b c)
    (hd : isContinuation d) :
    chunk b (c :: d :: rest) =
      ⟨some (Char.ofNat ((b.toNat % 16 * 64 + payload c) * 64 + payload d)), 2⟩ := by
  unfold chunk
  simp only [UInt8.lt_iff_toNat_lt, UInt8.le_iff_toNat_le, UInt8.reduceToNat]
  rw [if_neg (by omega), if_neg (by simp; omega), if_pos (by simpa using hb), if_pos hc, if_pos hd]

theorem chunk_four (hb : 0xF0 ≤ b.toNat ∧ b.toNat ≤ 0xF4) (hc : isSecondOfFour b c)
    (hd : isContinuation d) (he : isContinuation e) :
    chunk b (c :: d :: e :: rest) =
      ⟨some (Char.ofNat
        (((b.toNat % 8 * 64 + payload c) * 64 + payload d) * 64 + payload e)), 3⟩ := by
  unfold chunk
  simp only [UInt8.lt_iff_toNat_lt, UInt8.le_iff_toNat_le, UInt8.reduceToNat]
  rw [if_neg (by omega), if_neg (by simp; omega), if_neg (by simp; omega),
    if_pos (by simpa using hb), if_pos hc, if_pos hd, if_pos he]

/-! ## Characters and texts -/

/-- The bytes of a character are read as that character, whatever follows. -/
theorem chunk_utf8EncodeChar (c : Char) (rest : Bytes) :
    ∃ b l, String.utf8EncodeChar c = b :: l ∧ chunk b (l ++ rest) = ⟨some c, l.length⟩ := by
  have hvalid : c.val.toNat < 0xD800 ∨ 0xDFFF < c.val.toNat ∧ c.val.toNat < 0x110000 := c.valid
  have hchar {n : Nat} (h : n = c.val.toNat) : Char.ofNat n = c := h ▸ Char.ofNat_toNat c
  generalize hn : c.val.toNat = n at hvalid hchar
  have hfirst {k : Nat} (h : k < 256) : (UInt8.ofNat k).toNat = k := UInt8.toNat_ofNat_of_lt' h
  unfold String.utf8EncodeChar
  simp only [hn]
  -- The cases are those of the number of bytes.
  split
  · have hb := hfirst (k := n) (by omega)
    refine ⟨_, [], rfl, ?_⟩
    rw [chunk_one (by omega), hb, hchar rfl]
    rfl
  split
  · have hb := hfirst (k := n / 64 % 32 + 0xC0) (by omega)
    refine ⟨_, [tailByte n], rfl, ?_⟩
    rw [List.singleton_append, chunk_two (by omega) (isContinuation_tailByte n), hb,
      payload_tailByte, hchar (by omega)]
    rfl
  split
  · have hb := hfirst (k := n / 4096 % 16 + 0xE0) (by omega)
    refine ⟨_, [tailByte (n / 64), tailByte n], rfl, ?_⟩
    rw [List.cons_append, List.singleton_append,
      chunk_three (by omega) (isSecondOfThree_tailByte hb (by omega) (by omega))
        (isContinuation_tailByte n),
      hb, payload_tailByte, payload_tailByte, hchar (by omega)]
    rfl
  · have hb := hfirst (k := n / 262144 % 8 + 0xF0) (by omega)
    refine ⟨_, [tailByte (n / 4096), tailByte (n / 64), tailByte n], rfl, ?_⟩
    rw [List.cons_append, List.cons_append, List.singleton_append,
      chunk_four (by omega) (isSecondOfFour_tailByte hb (by omega) (by omega))
        (isContinuation_tailByte _) (isContinuation_tailByte n),
      hb, payload_tailByte, payload_tailByte, payload_tailByte, hchar (by omega)]
    rfl

theorem decodeChars_flatMap (cs : List Char) :
    decodeChars (cs.flatMap String.utf8EncodeChar) = cs := by
  induction cs with
  | nil => simp [decodeChars]
  | cons c cs ih =>
    obtain ⟨b, l, hc, hchunk⟩ := chunk_utf8EncodeChar c (cs.flatMap String.utf8EncodeChar)
    rw [List.flatMap_cons, hc, List.cons_append, decodeChars, hchunk, List.drop_left, ih]
    rfl

/-- The UTF-8 form of a text is read back as that text. -/
theorem decode_utf8 (s : String) : decode (utf8 s) = s := by
  rw [← String.ofList_toList (s := s), utf8_ofList, decode, decodeChars_flatMap]

/-- ASCII bytes are the UTF-8 form of a text. -/
theorem exists_utf8_of_ascii {l : Bytes} (h : ∀ b ∈ l, isAscii b) : ∃ s, l = utf8 s := by
  induction l with
  | nil => exact ⟨"", rfl⟩
  | cons b l ih =>
    obtain ⟨s, rfl⟩ := ih fun c hc => h c (by simp [hc])
    have hb : b.toNat < 128 := 
      UInt8.lt_iff_toNat_lt.1 (of_decide_eq_true (h b (by simp)))
    have hc : (Char.ofUInt8 b).val.toNat = b.toNat := UInt8.toNat_toUInt32 b
    refine ⟨String.ofList [Char.ofUInt8 b] ++ s, ?_⟩
    rw [utf8_append, utf8_ofList, List.flatMap_singleton, String.utf8EncodeChar]
    simp [hc, if_pos (by omega : b.toNat ≤ 127)]

end Text

end HttpServer
