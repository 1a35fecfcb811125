/-!
# The fewest digits of a floating-point number

A positive number with 53 significant bits is `mantissa · 2 ^ exponent`. The reals that
round to it form an interval, whose ends belong to it exactly when the mantissa is even.
`Binary.shortest` gives the decimal with the fewest digits in that interval, and of two
with that many digits the nearer one. All comparisons are between natural numbers.
-/

namespace HttpServer.Decimal

/-- A positive number with a binary exponent. -/
structure Binary where
  /-- The significant bits. -/
  mantissa : Nat
  /-- The power of two that they are multiples of. -/
  exponent : Int
  /-- The next number below is half as far away as the next one above. -/
  narrowBelow : Bool
deriving DecidableEq, Repr

/-- A number with a decimal exponent. -/
structure Scientific where
  /-- The digits, read as one number. -/
  digits : Nat
  /-- The power of ten that they are multiples of. -/
  exponent : Int
deriving DecidableEq, Repr

/-- Compares `a · 10 ^ i` with `n · 2 ^ j`. -/
def compareScaled (a : Nat) (i : Int) (n : Nat) (j : Int) : Ordering :=
  compare ((a * Nat.pow 10 i.toNat) <<< (-j).toNat) ((n <<< j.toNat) * Nat.pow 10 (-i).toNat)

/-- The number of decimal digits of a natural number, one for zero. -/
def digitCount (n : Nat) : Nat :=
  if n < 10 then 1 else digitCount (n / 10) + 1

namespace Binary

/-- The number whose sign-free bits are given, which are those of a finite number above
zero. -/
def ofBits (bits : Nat) : Binary :=
  let e : Nat := bits >>> 52
  let f : Nat := bits % (1 <<< 52)
  if e = 0 then ⟨f, -1074, false⟩ else ⟨(1 <<< 52) + f, (e : Int) - 1075, f = 0 ∧ 1 < e⟩

/-- The decimal lies in the interval of the reals that round to the number. -/
def readsBack (x : Binary) (d : Scientific) : Bool :=
  let low := 4 * x.mantissa - (if x.narrowBelow then 1 else 2)
  let high := 4 * x.mantissa + 2
  let closed := x.mantissa % 2 = 0
  let atLow := compareScaled d.digits d.exponent low (x.exponent - 2)
  let atHigh := compareScaled d.digits d.exponent high (x.exponent - 2)
  (atLow = .gt ∨ (closed ∧ atLow = .eq)) ∧ (atHigh = .lt ∨ (closed ∧ atHigh = .eq))

/-- The least power of ten above the number. -/
def scale (x : Binary) : Int :=
  let num := x.mantissa <<< x.exponent.toNat
  let den := 1 <<< (-x.exponent).toNat
  if den ≤ num then digitCount (num / den)
  else 1 - (digitCount ((den + num - 1) / num - 1) : Int)

/-- The multiple of `10 ^ e` just below the number, in units of `10 ^ e`. -/
def gridFloor (x : Binary) (e : Int) : Nat :=
  ((x.mantissa <<< x.exponent.toNat) * Nat.pow 10 (-e).toNat)
    / ((1 <<< (-x.exponent).toNat) * Nat.pow 10 e.toNat)

/-- The better of the two multiples of `10 ^ e` around the number, if one lies in its
interval. -/
def onGrid? (x : Binary) (e : Int) : Option Scientific :=
  let low : Scientific := ⟨x.gridFloor e, e⟩
  let high : Scientific := ⟨x.gridFloor e + 1, e⟩
  match x.readsBack low, x.readsBack high with
  | true, false => some low
  | false, true => some high
  | false, false => none
  | true, true =>
    match compareScaled (2 * low.digits + 1) e (2 * x.mantissa) x.exponent with
    | .gt => some low
    | .lt => some high
    | .eq => some (if low.digits % 2 = 0 then low else high)

/-- The decimal with the fewest digits that reads back as the number. -/
def shortest (x : Binary) : Scientific :=
  let k := x.scale
  ((List.range 17).findSome? fun (n : Nat) => x.onGrid? (k - (n + 1))).getD
    ⟨x.gridFloor (k - 17), k - 17⟩

end Binary

end HttpServer.Decimal
