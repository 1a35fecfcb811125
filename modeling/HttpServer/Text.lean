import HttpServer.Bytes

/-!
# Bytes as text

A body may hold any bytes, while logs, pages and JSON hold text. `Text.decode` reads bytes
as UTF-8 and puts one replacement character in the place of every maximal stretch that
begins a character and is then broken off, and of every byte that begins none. Bytes that
are the UTF-8 form of a text are read back as that text.
-/

namespace HttpServer.Text

/-- What stands at the front of a byte stretch : a whole character, or a mistake. `extra` is
the number of bytes it takes beyond the first. -/
structure Chunk where
  /-- The character, if the bytes form one. -/
  char? : Option Char
  /-- The number of bytes beyond the first. -/
  extra : Nat

/-- The second, third and fourth bytes of a character. -/
def isContinuation (b : UInt8) : Bool := 0x80 ≤ b && b ≤ 0xBF

/-- The range of the second byte after a first byte of a three-byte character, which leaves
out overlong forms and surrogates. -/
def isSecondOfThree (b c : UInt8) : Bool :=
  (if b = 0xE0 then 0xA0 else 0x80) ≤ c && c ≤ (if b = 0xED then 0x9F else 0xBF)

/-- The range of the second byte after a first byte of a four-byte character, which leaves
out overlong forms and numbers beyond the last character. -/
def isSecondOfFour (b c : UInt8) : Bool :=
  (if b = 0xF0 then 0x90 else 0x80) ≤ c && c ≤ (if b = 0xF4 then 0x8F else 0xBF)

/-- The payload of a continuation byte. -/
def payload (b : UInt8) : Nat := b.toNat % 64

/-- The chunk that begins with the byte `b` when `rest` follows. -/
def chunk (b : UInt8) (rest : Bytes) : Chunk :=
  if b < 0x80 then ⟨some (Char.ofNat b.toNat), 0⟩
  else if 0xC2 ≤ b && b ≤ 0xDF then
    match rest with
    | c :: _ =>
      if isContinuation c then ⟨some (Char.ofNat (b.toNat % 32 * 64 + payload c)), 1⟩
      else ⟨none, 0⟩
    | [] => ⟨none, 0⟩
  else if 0xE0 ≤ b && b ≤ 0xEF then
    match rest with
    | c :: d :: _ =>
      if isSecondOfThree b c then
        if isContinuation d then
          ⟨some (Char.ofNat ((b.toNat % 16 * 64 + payload c) * 64 + payload d)), 2⟩
        else ⟨none, 1⟩
      else ⟨none, 0⟩
    | [c] => ⟨none, if isSecondOfThree b c then 1 else 0⟩
    | [] => ⟨none, 0⟩
  else if 0xF0 ≤ b && b ≤ 0xF4 then
    match rest with
    | c :: d :: e :: _ =>
      if isSecondOfFour b c then
        if isContinuation d then
          if isContinuation e then
            ⟨some (Char.ofNat
              (((b.toNat % 8 * 64 + payload c) * 64 + payload d) * 64 + payload e)), 3⟩
          else ⟨none, 2⟩
        else ⟨none, 1⟩
      else ⟨none, 0⟩
    | [c, d] =>
      ⟨none, if isSecondOfFour b c then (if isContinuation d then 2 else 1) else 0⟩
    | [c] => ⟨none, if isSecondOfFour b c then 1 else 0⟩
    | [] => ⟨none, 0⟩
  else ⟨none, 0⟩

/-- The character that stands for a stretch that is not UTF-8. -/
def replacement : Char := '\uFFFD'

/-- The characters of a byte stretch, each mistake read as `replacement`. -/
def decodeChars : Bytes → List Char
  | [] => []
  | b :: rest =>
    let k := chunk b rest
    k.char?.getD replacement :: decodeChars (rest.drop k.extra)
termination_by l => l.length
decreasing_by simp only [List.length_cons, List.length_drop]; omega

/-- The text of a byte stretch, each mistake read as `replacement`. -/
def decode (l : Bytes) : String := String.ofList (decodeChars l)

end HttpServer.Text
