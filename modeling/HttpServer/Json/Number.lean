import HttpServer.Decimal
import HttpServer.Decimal.Shortest
import HttpServer.Json

/-!
# Numbers in JSON

Reading takes a numeral apart into its digits and its exponent. As many digits as fit into
64 bits are kept; the number they form is then brought to scale by one multiplication or
division, and a result beyond the floating-point range is refused. A numeral without a point
and an exponent that fits stays a whole number.

Writing gives a whole number its decimal numeral and any other the fewest digits that read
back, with a point between or after the digits for magnitudes from `10 ^ -5` up to
`10 ^ 16`, and with a signed exponent beyond.
-/

namespace HttpServer.Json

/-! ## Reading -/

/-- The number that a digit character stands for. -/
def digitOf (c : Char) : Nat := c.toNat - 48

/-- The digits that are kept so far, read as one number, and the power of ten that it is to
be multiplied by. -/
structure Scaled where
  /-- The digits kept. -/
  significand : Nat
  /-- The power of ten. -/
  exponent : Int

/-- Adds digits before the point, each of which raises the exponent once one of them no longer
fits. -/
def Scaled.addWhole (s : Scaled) : List Char → Scaled
  | [] => s
  | c :: l =>
    let n := s.significand * 10 + digitOf c
    if n ≤ wordMax then addWhole { s with significand := n } l
    else { s with exponent := s.exponent + (l.length + 1) }

/-- Adds digits behind the point; those from the first that no longer fits are dropped. -/
def Scaled.addFraction (s : Scaled) : List Char → Scaled
  | [] => s
  | c :: l =>
    let n := s.significand * 10 + digitOf c
    if n ≤ wordMax then addFraction { significand := n, exponent := s.exponent - 1 } l else s

/-- Brings a number to scale; `none` if the result is beyond the range of floating-point
numbers. -/
def scaleFloat? (f : Float) (e : Int) : Option Float :=
  if h : e.natAbs ≤ 308 then
    if 0 ≤ e then
      let g := f * Float.ofScientific 1 false e.natAbs
      if g.isInf then none else some g
    else some (f / Float.ofScientific 1 false e.natAbs)
  else if f == 0.0 then some f
  else if 0 ≤ e then none
  else scaleFloat? (f / 1e308) (e + 308)
termination_by e.natAbs
decreasing_by omega

/-- The floating-point number of a numeral. -/
def Scaled.toFloat? (s : Scaled) (negative : Bool) : Option Float :=
  (scaleFloat? s.significand.toUInt64.toFloat s.exponent).map fun f => if negative then -f else f

/-- The number of a numeral whose exponent is given by a sign and digits. An exponent of more
than 31 bits gives zero or a number out of range. -/
def Scaled.withExponent? (s : Scaled) (negative expNegative : Bool) (digits : List Char) :
    Option Float :=
  let e := digits.foldl (fun n c => n * 10 + digitOf c) 0
  if 1 <<< 31 ≤ e then
    if s.significand ≠ 0 ∧ ¬expNegative then none else some (if negative then -0.0 else 0.0)
  else
    let e' : Int := if expNegative then -(e : Int) else e
    Scaled.toFloat? { s with exponent := s.exponent + e' } negative

/-- The rest of a numeral behind its whole part and fraction. -/
def exponentPart? (s : Scaled) (negative : Bool) : List Char → Option Float
  | [] => s.toFloat? negative
  | c :: l =>
    if c = 'e' ∨ c = 'E' then
      let (expNegative, digits) :=
        match l with
        | '-' :: d => (true, d)
        | '+' :: d => (false, d)
        | d => (false, d)
      if digits.isEmpty ∨ ¬digits.all Char.isDigit then none
      else s.withExponent? negative expNegative digits
    else none

/-- The whole number of a numeral without a point and an exponent, as long as it fits. -/
def wholeNumber? (s : Scaled) (negative : Bool) : Option Json :=
  if s.exponent ≠ 0 then (s.toFloat? negative).map float
  else if ¬negative then some (int s.significand)
  else if 0 < s.significand ∧ s.significand ≤ 1 <<< 63 then some (int (-(s.significand : Int)))
  else (s.toFloat? negative).map float

/-- The number of a numeral. -/
def ofNumeral? (l : List Char) : Option Json :=
  let (negative, l) :=
    match l with
    | '-' :: l => (true, l)
    | l => (false, l)
  let whole := l.takeWhile Char.isDigit
  let rest := l.dropWhile Char.isDigit
  if whole.isEmpty ∨ (whole.head? = some '0' ∧ 1 < whole.length) then none
  else
    let s := Scaled.addWhole ⟨0, 0⟩ whole
    match rest with
    | [] => wholeNumber? s negative
    | '.' :: rest =>
      let fraction := rest.takeWhile Char.isDigit
      if fraction.isEmpty then none
      else
        (exponentPart? (s.addFraction fraction) negative (rest.dropWhile Char.isDigit)).map float
    | rest => (exponentPart? s negative rest).map float

/-! ## Writing -/

/-- The digits of a positive decimal without zeros at the end, and the exponent of the
leading one. -/
def leadingDigits (d : Decimal.Scientific) : String × Int :=
  let digits := toString d.digits
  let trimmed := String.ofList (digits.toList.reverse.dropWhile (· = '0')).reverse
  (trimmed, d.exponent + digits.length - 1)

/-- Lays out digits of which the leading one stands for `10 ^ e`. -/
def layOut (digits : String) (e : Int) : String :=
  let n : Int := digits.length
  if -5 ≤ e ∧ e < 16 then
    if n ≤ e + 1 then digits ++ String.ofList (List.replicate (e + 1 - n).toNat '0') ++ ".0"
    else if 0 ≤ e then
      String.ofList (digits.toList.take (e + 1).toNat) ++ "."
        ++ String.ofList (digits.toList.drop (e + 1).toNat)
    else "0." ++ String.ofList (List.replicate (-e - 1).toNat '0') ++ digits
  else
    let mark := if e < 0 then "e-" else "e+"
    let point := if n = 1 then "" else "."
    String.ofList (digits.toList.take 1) ++ point ++ String.ofList (digits.toList.drop 1)
      ++ mark ++ toString e.natAbs

/-- The text of a finite floating-point number. -/
def floatText (x : Float) : String :=
  let bits := x.toBits.toNat
  let sign := if bits >>> 63 = 1 then "-" else ""
  let rest := bits % (1 <<< 63)
  if rest = 0 then sign ++ "0.0"
  else
    let (digits, e) := leadingDigits (Decimal.Binary.ofBits rest).shortest
    sign ++ layOut digits e

end HttpServer.Json
