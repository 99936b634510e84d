import Dataflow.Wire.Basic
set_option autoImplicit false

/-!
Numerals as they are written, and the number each one names. A numeral without a point and without a
power is a whole number if it fits into 64 bits. Any other is a binary64 number: the leading digits
that fit into 64 bits, times or divided by a power of ten, each step rounded.
-/

namespace Dataflow

structure Numeral where
  negative : Bool
  whole : List Nat
  fraction : Option (List Nat)
  /-- The digits of the power of ten, and whether it is negative. -/
  power : Option (Bool × List Nat)
  deriving DecidableEq, Repr

namespace Numeral

/-- Takes digits as long as the number they spell fits into 64 bits, and counts the taken ones. -/
def accumulate (n : Nat) : List Nat → Nat × Nat
  | [] => (n, 0)
  | d :: ds =>
    if n * 10 + d < UInt64.size then
      let (m, taken) := accumulate (n * 10 + d) ds
      (m, taken + 1)
    else (n, 0)

theorem accumulate_taken_le (n : Nat) (ds : List Nat) : (accumulate n ds).2 ≤ ds.length := by
  induction ds generalizing n with
  | nil => simp [accumulate]
  | cons d ds ih =>
    have := ih (n * 10 + d)
    simp only [accumulate]
    split <;> simp <;> omega

def powerOfTen (e : Nat) : Float := Float.ofScientific 1 false e

/-- Divides by the largest power of ten as often as the exponent asks for. -/
def shrink (f : Float) (e : Nat) : Float :=
  if h : e ≤ 308 then f / powerOfTen e
  else if f == 0.0 then f
  else shrink (f / powerOfTen 308) (e - 308)
termination_by e

def scale (n : Nat) (e : Int) : Option Float :=
  let f := (UInt64.ofNat n).toFloat
  if e < 0 then some (shrink f (-e).toNat)
  else if 308 < e then (if n = 0 then some f else none)
  else
    let g := f * powerOfTen e.toNat
    if g.isInf then none else some g

def spell (ds : List Nat) : Nat := ds.foldl (fun n d => n * 10 + d) 0

/-- Powers of ten are counted up to `2 ^ 31 - 1`. -/
def powerLimit : Nat := UInt32.size / 2

/-- The digits of the number and the power of ten that scales them. -/
def significand (x : Numeral) : Nat × Int :=
  let (n, taken) := accumulate 0 x.whole
  let (n, places) := accumulate n (x.fraction.getD [])
  (n, ((x.whole.length - taken : Nat) : Int) - places)

def float? (x : Numeral) : Option Float :=
  let (n, e) := x.significand
  let magnitude := match x.power with
    | none => scale n e
    | some (down, ds) =>
      if spell ds < powerLimit then scale n (if down then e - spell ds else e + spell ds)
      else if n = 0 || down then some 0.0
      else none
  magnitude.map fun f => if x.negative then -f else f

/-- Zero with a sign and whole numbers beyond 64 bits are no whole numbers. -/
def int? (x : Numeral) : Option Int :=
  match x.fraction, x.power with
  | none, none =>
    let n := spell x.whole
    if x.negative then (if 0 < n ∧ n ≤ UInt64.size / 2 then some (-n) else none)
    else if n < UInt64.size then some n
    else none
  | _, _ => none

def wire (x : Numeral) : Wire :=
  match x.int? with
  | some i => .int i
  | none => match x.float? with
    | some f => .float f
    | none => .broken

end Numeral
end Dataflow
