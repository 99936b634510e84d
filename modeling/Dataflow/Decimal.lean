set_option autoImplicit false

/-!
Decimal numbers and the shortest decimal of a binary64 number. A finite number is `m * 2^q`, and the
reals that round to it form an interval around it, ends included when `m` is even. Among the grids
`10^e` the coarsest one with a point in that interval is taken, and on it the point nearest to the
number, so the digits are as few as can be and then as close as can be.
-/

namespace Dataflow

/-- `digits * 10 ^ exponent`. -/
structure Decimal where
  digits : Nat
  exponent : Int
  deriving DecidableEq, Repr

/-- A positive finite binary number `significand * 2 ^ exponent`. The lower gap is half as wide at a
power of two. -/
structure Binary where
  significand : Nat
  exponent : Int
  narrowBelow : Bool
  deriving DecidableEq, Repr

/-- The magnitude of a finite number that is not zero. -/
def Binary.ofFloat (x : Float) : Binary :=
  let bits := x.toBits.toNat
  let biased : Nat := (bits >>> 52) % 2048
  let fraction : Nat := bits % (1 <<< 52)
  if biased = 0 then ⟨fraction, -1074, false⟩
  else ⟨(1 <<< 52) + fraction, (biased : Int) - 1075, fraction == 0 && 1 < biased⟩

namespace Binary

/-- The powers of two that a quarter unit stands for, above and below the fraction bar. -/
def quarter (b : Binary) : Nat × Nat :=
  let e := b.exponent - 2
  if 0 ≤ e then (1 <<< e.toNat, 1) else (1, 1 <<< (-e).toNat)

/-- The point of the grid `10 ^ e` that rounds to `b` and lies nearest to it, if there is one. -/
def onGrid (b : Binary) (e : Int) : Option Nat :=
  let (up, down) := b.quarter
  let (gridUp, gridDown) := if 0 ≤ e then (Nat.pow 10 e.toNat, 1) else (1, Nat.pow 10 (-e).toNat)
  let unit := up * gridDown
  let point := down * gridUp
  let middle := 4 * b.significand * unit
  let low := (4 * b.significand - if b.narrowBelow then 1 else 2) * unit
  let high := (4 * b.significand + 2) * unit
  let inside := fun c => if b.significand % 2 = 0 then low ≤ c * point && c * point ≤ high
    else low < c * point && c * point < high
  let c := middle / point
  match inside c, inside (c + 1) with
  | false, false => none
  | true, false => some c
  | false, true => some (c + 1)
  | true, true =>
    if 2 * middle < (2 * c + 1) * point then some c
    else if (2 * c + 1) * point < 2 * middle then some (c + 1)
    else some (c + c % 2)

/-- An exponent of ten above the number: `30103 / 100000` is a little more than `log10 2`. -/
def scale (b : Binary) : Int :=
  ((b.significand.log2 : Int) + b.exponent + 1) * 30103 / 100000 + 1

/-- Tries finer and finer grids. Seventeen digits always suffice, so twenty steps do. -/
def shortestFrom (b : Binary) : Nat → Int → Decimal
  | 0, e => ⟨b.significand, e⟩
  | n + 1, e =>
    match b.onGrid e with
    | some c => ⟨c, e⟩
    | none => b.shortestFrom n (e - 1)

def shortest (b : Binary) : Decimal := b.shortestFrom 20 b.scale

end Binary

/-- Decimal digits, the first one first. -/
def digitChars (n : Nat) : List Char := Nat.toDigits 10 n

def intChars (i : Int) : List Char :=
  if i < 0 then '-' :: digitChars i.natAbs else digitChars i.natAbs

/-- Between `10 ^ low` and `10 ^ high` a number is written with a plain point, otherwise with one
digit before the point and a signed power of ten. -/
structure Notation where
  low : Int
  high : Int
  deriving DecidableEq, Repr

def Decimal.write (n : Notation) (d : Decimal) : List Char :=
  let ds := digitChars d.digits
  let power := d.exponent + ds.length - 1
  if n.low ≤ power && power < n.high then
    if 0 ≤ d.exponent then ds ++ List.replicate d.exponent.toNat '0' ++ ['.', '0']
    else
      let places := (-d.exponent).toNat
      if places < ds.length then ds.take (ds.length - places) ++ '.' :: ds.drop (ds.length - places)
      else '0' :: '.' :: List.replicate (places - ds.length) '0' ++ ds
  else
    let mantissa := match ds with
      | d :: e :: r => d :: '.' :: e :: r
      | ds => ds
    mantissa ++ 'e' :: (if power < 0 then intChars power else '+' :: intChars power)

/-- The text of a finite number, which always shows that it is no integer. -/
def floatChars (n : Notation) (x : Float) : List Char :=
  let sign := if x.toBits >>> 63 = 1 then ['-'] else []
  if x == 0.0 then sign ++ ['0', '.', '0']
  else sign ++ (Binary.ofFloat x).shortest.write n

end Dataflow
