import DeviceLog.Number.Shortest

/-! # Numbers of a document

A number is kept as it is spelled until it is used. It is an integer if it is spelled without
fraction and exponent and fits in 64 bits, and otherwise a floating point number, which may be out
of range.
-/

namespace DeviceLog.Json

/-- A number as it is spelled: digits before the point, digits after it, and an exponent. -/
structure Numeral where
  negative : Bool := false
  whole : List Nat
  fraction : Option (List Nat) := none
  exponent : Option (Bool × List Nat) := none
  deriving DecidableEq, Repr

namespace Numeral

/-- What a numeral stands for. -/
inductive Value where
  | integer (n : Int)
  | real (x : Float)

/-- One more than the greatest significand that is kept. -/
def bound : Nat := UInt64.size

/-- Appends digits to a significand for as long as it stays below `bound`; also how many were
appended. -/
def gather (significand : Nat) : List Nat → Nat × Nat
  | [] => (significand, 0)
  | d :: digits =>
    if significand * 10 + d < bound then
      let (found, count) := gather (significand * 10 + d) digits
      (found, count + 1)
    else (significand, 0)

def ofDigits (digits : List Nat) : Nat := digits.foldl (fun n d => n * 10 + d) 0

/-- The product `x * 10 ^ e`, scaled by one power of ten where the format has it, and downwards in
steps of the greatest one where it does not; nothing if it is too large. -/
def scale (x : Float) (e : Int) : Nat → Option Float
  | 0 => some 0
  | turns + 1 =>
    if e.natAbs ≤ 308 then
      let power := Float.ofScientific 1 false e.natAbs
      if e ≥ 0 then
        let y := x * power
        if y.isInf then none else some y
      else some (x / power)
    else if x == 0 then some x
    else if e ≥ 0 then none
    else scale (x / Float.ofScientific 1 false 308) (e + 308) turns

/-- The value of a significand times a power of ten. -/
def real (negative : Bool) (significand : Nat) (e : Int) : Option Value :=
  (scale (UInt64.ofNat significand).toFloat e 8).map fun x => .real (if negative then -x else x)

/-- The greatest exponent that is told apart from greater ones. -/
def exponentBound : Nat := 0x80000000

/-- The value of a numeral, unless it is out of range. A significand of more than 64 bits loses its
last digits, and negative zero is a floating point number. -/
def value (n : Numeral) : Option Value :=
  let (significand, kept) := gather 0 n.whole
  let dropped := n.whole.length - kept
  match n.fraction, n.exponent with
  | none, none =>
    if dropped = 0 then
      -- The least number of 64 bits has no opposite, and zero with a sign is no integer.
      if n.negative then
        if 0 < significand ∧ significand ≤ 0x8000000000000000 then some (.integer (-significand))
        else real true significand 0
      else some (.integer significand)
    else real n.negative significand dropped
  | fraction, exponent =>
    let (significand, places) := gather significand (fraction.getD [])
    let point : Int := dropped - places
    match exponent with
    | none => real n.negative significand point
    | some (down, digits) =>
      let e := ofDigits digits
      if e < exponentBound then
        real n.negative significand (if down then point - e else point + e)
      -- So great an exponent is out of range, or leaves nothing of the digits.
      else if significand ≠ 0 ∧ ¬ down then none
      else real n.negative 0 0

/-- Floating point numbers in messages have no exponent from 0.00001 up to below 10 to the 16, and
otherwise an exponent without zeros in front. -/
def messageStyle : Number.Style := ⟨-5, 15, 1⟩

end Numeral

end DeviceLog.Json
