import HttpServer.Json.Number
import HttpServer.Text

/-!
# Reading JSON

A document is first cut into tokens and then put together with a stack of the arrays and
objects that are still open. Both steps walk down a list once. At most 127 arrays and objects
may be open at a time.
-/

namespace HttpServer.Json

/-! ## Tokens -/

/-- A piece of a document. -/
inductive Token where
  | openArray
  | closeArray
  | openObject
  | closeObject
  | comma
  | colon
  /-- A string, which may be a key. -/
  | text (s : String)
  /-- A number or a literal. -/
  | atom (j : Json)

/-- The blanks between tokens. -/
def isBlank (c : Char) : Bool := c = ' ' || c = '\n' || c = '\t' || c = '\r'

/-- The characters that numerals and literals are made of. -/
def isAtomChar (c : Char) : Bool := c.isAlphanum || c = '+' || c = '-' || c = '.'

/-- The value of a hexadecimal digit. -/
def hexDigit? (c : Char) : Option Nat :=
  if c.isDigit then some (c.toNat - 48)
  else if 'a' ≤ c ∧ c ≤ 'f' then some (c.toNat - 87)
  else if 'A' ≤ c ∧ c ≤ 'F' then some (c.toNat - 55)
  else none

/-- The number written by four hexadecimal digits. -/
def hexFour? (a b c d : Char) : Option Nat := do
  let a ← hexDigit? a
  let b ← hexDigit? b
  let c ← hexDigit? c
  let d ← hexDigit? d
  return ((a * 16 + b) * 16 + c) * 16 + d

/-- The character that a backslash and one letter stand for. -/
def simpleEscape? : Char → Option Char
  | '"' => some '"'
  | '\\' => some '\\'
  | '/' => some '/'
  | 'b' => some (Char.ofNat 8)
  | 'f' => some (Char.ofNat 12)
  | 'n' => some '\n'
  | 'r' => some '\r'
  | 't' => some '\t'
  | _ => none

/-- What stands between the opening quote of a string and its closing one, and what follows. -/
def untilQuote? : List Char → Option (List Char × List Char)
  | [] => none
  | '"' :: l => some ([], l)
  | '\\' :: c :: l => (untilQuote? l).map fun p => ('\\' :: c :: p.1, p.2)
  | c :: l => (untilQuote? l).map fun p => (c :: p.1, p.2)

theorem length_of_untilQuote? {l s r : List Char} (h : untilQuote? l = some (s, r)) :
    r.length < l.length := by
  fun_induction untilQuote? l generalizing s with
  | case1 => simp at h
  | case2 l => cases h; simp
  | case3 c l ih =>
    obtain ⟨p, hp, hq⟩ := Option.map_eq_some_iff.1 h
    obtain ⟨-, rfl⟩ := Prod.mk.inj hq
    have := ih hp
    simp; omega
  | case4 c l _ _ ih =>
    obtain ⟨p, hp, hq⟩ := Option.map_eq_some_iff.1 h
    obtain ⟨-, rfl⟩ := Prod.mk.inj hq
    have := ih hp
    simp; omega

/-- The character that two escaped numbers stand for together. -/
def surrogatePair? (n m : Nat) : Option Char :=
  if 0xD800 ≤ n ∧ n < 0xDC00 ∧ 0xDC00 ≤ m ∧ m < 0xE000 then
    some (Char.ofNat (0x10000 + (n - 0xD800) * 1024 + (m - 0xDC00)))
  else none

/-- The characters of a string as it is written. A character beyond 16 bits is escaped as a
pair of numbers, neither of which may stand alone; control characters must be escaped. -/
def unescape? : List Char → Option (List Char)
  | [] => some []
  | '\\' :: 'u' :: a :: b :: c :: d :: l =>
    match hexFour? a b c d with
    | none => none
    | some n =>
      if 0xD800 ≤ n ∧ n < 0xE000 then
        match l with
        | '\\' :: 'u' :: e :: f :: g :: h :: l =>
          ((hexFour? e f g h).bind (surrogatePair? n)).bind fun x =>
            (unescape? l).map (x :: ·)
        | _ => none
      else (unescape? l).map (Char.ofNat n :: ·)
  | '\\' :: c :: l => (simpleEscape? c).bind fun x => (unescape? l).map (x :: ·)
  | c :: l => if c < ' ' ∨ c = '\\' then none else (unescape? l).map (c :: ·)

/-- The text of a string behind its opening quote, and what follows its closing quote. -/
def stringBody? (l : List Char) : Option (List Char) × List Char :=
  match untilQuote? l with
  | none => (none, [])
  | some (s, rest) => (unescape? s, rest)

theorem length_stringBody? (l : List Char) : (stringBody? l).2.length ≤ l.length := by
  unfold stringBody?
  split
  · simp
  · exact Nat.le_of_lt (length_of_untilQuote? ‹_›)

/-- The atom that is spelt by the given characters. -/
def atom? (l : List Char) : Option Json :=
  if l = "null".toList then some null
  else if l = "true".toList then some (bool true)
  else if l = "false".toList then some (bool false)
  else ofNumeral? l

/-- The mark that a character is. -/
def mark? : Char → Option Token
  | '[' => some .openArray
  | ']' => some .closeArray
  | '\x7b' => some .openObject
  | '\x7d' => some .closeObject
  | ',' => some .comma
  | ':' => some .colon
  | _ => none

/-- The tokens of a document. -/
def tokens? : List Char → Option (List Token)
  | [] => some []
  | c :: l =>
    if isBlank c then tokens? l
    else if c = '"' then
      match (stringBody? l).1 with
      | none => none
      | some s => (tokens? (stringBody? l).2).map (.text (String.ofList s) :: ·)
    else
      match mark? c with
      | some t => (tokens? l).map (t :: ·)
      | none =>
        match atom? (c :: l.takeWhile isAtomChar) with
        | none => none
        | some j => (tokens? (l.dropWhile isAtomChar)).map (.atom j :: ·)
termination_by l => l.length
decreasing_by
  · simp
  · have := length_stringBody? l
    simp; omega
  · simp
  · have := (List.dropWhile_sublist (l := l) isAtomChar).length_le
    simp; omega

/-! ## Values -/

/-- An array or object that is still open; its items and members are in reverse. -/
inductive Frame where
  | array (items : List Json)
  /-- An object, with the key of the value that comes next. -/
  | object (members : List (String × Json)) (key : String)

/-- What may come next. -/
inductive Expect where
  | value
  /-- A value, or the end of the array that was just opened. -/
  | firstItem
  /-- A key, or the end of the object that was just opened. -/
  | firstKey (members : List (String × Json))
  | key (members : List (String × Json))
  | colon (members : List (String × Json)) (key : String)
  /-- What follows a value inside an array or object. -/
  | separator
  /-- Nothing : the value is complete. -/
  | nothing (j : Json)

/-- Puts a complete value in its place. -/
def place (j : Json) : List Frame → List Frame × Expect
  | [] => ([], .nothing j)
  | .array items :: stack => (.array (j :: items) :: stack, .separator)
  | .object members k :: stack => (.object ((k, j) :: members) k :: stack, .separator)

/-- How many arrays and objects may be open at a time. -/
def maxDepth : Nat := 127

/-- The value that a token opens or is. -/
def beginValue? (stack : List Frame) (depth : Nat) : Token → Option (List Frame × Expect × Nat)
  | .openArray =>
    if depth < maxDepth then some (.array [] :: stack, .firstItem, depth + 1) else none
  | .openObject => if depth < maxDepth then some (stack, .firstKey [], depth + 1) else none
  | .text s => some ((place (string s) stack).1, (place (string s) stack).2, depth)
  | .atom j => some ((place j stack).1, (place j stack).2, depth)
  | _ => none

/-- Closes the innermost array or object. -/
def endValue (j : Json) (stack : List Frame) (depth : Nat) : List Frame × Expect × Nat :=
  ((place j stack).1, (place j stack).2, depth - 1)

/-- One token on top of what was read. -/
def advance? (stack : List Frame) (expect : Expect) (depth : Nat) (t : Token) :
    Option (List Frame × Expect × Nat) :=
  match expect, t with
  | .value, t => beginValue? stack depth t
  | .firstItem, .closeArray =>
    match stack with
    | .array items :: stack => some (endValue (array items.reverse) stack depth)
    | _ => none
  | .firstItem, t => beginValue? stack depth t
  | .firstKey members, .closeObject => some (endValue (ofMembers members.reverse) stack depth)
  | .firstKey members, .text k => some (stack, .colon members k, depth)
  | .key members, .text k => some (stack, .colon members k, depth)
  | .colon members k, .colon => some (.object members k :: stack, .value, depth)
  | .separator, .comma =>
    match stack with
    | .array items :: stack => some (.array items :: stack, .value, depth)
    | .object members _ :: stack => some (stack, .key members, depth)
    | [] => none
  | .separator, .closeArray =>
    match stack with
    | .array items :: stack => some (endValue (array items.reverse) stack depth)
    | _ => none
  | .separator, .closeObject =>
    match stack with
    | .object members _ :: stack => some (endValue (ofMembers members.reverse) stack depth)
    | _ => none
  | _, _ => none

/-- The value of a list of tokens, on top of what was read. -/
def assemble? (stack : List Frame) (expect : Expect) (depth : Nat) : List Token → Option Json
  | [] =>
    match expect with
    | .nothing j => some j
    | _ => none
  | t :: l =>
    match advance? stack expect depth t with
    | some (stack, expect, depth) => assemble? stack expect depth l
    | none => none

/-- The value of a document given as characters. -/
def ofChars? (l : List Char) : Option Json := (tokens? l).bind (assemble? [] .value 0)

/-- The value of a document given as bytes, which must be the UTF-8 form of a text. -/
def ofBytes? (l : Bytes) : Option Json :=
  let chars := Text.decodeChars l
  if utf8 (String.ofList chars) = l then ofChars? chars else none

end HttpServer.Json
