/-! # Shortest decimals

A binary floating point number stands for every real number that is nearer to it than to its
neighbours. `shortest` picks, among the decimals in that interval, one with the fewest digits, and
of two such the one nearer to the number. `Style` says how the digits are written.
-/

namespace DeviceLog.Number

/-- A positive number in binary: `mantissa * 2 ^ exponent`. The gap below it is half the gap above
where `narrowBelow` is set. -/
structure Binary where
  mantissa : Nat
  exponent : Int
  narrowBelow : Bool
  deriving DecidableEq, Repr

/-- A positive decimal: `0.d₁d₂…dₙ * 10 ^ point`. -/
structure Decimal where
  digits : Nat
  count : Nat
  point : Int
  deriving DecidableEq, Repr

/-- The magnitude of a finite number that is not zero. -/
def Binary.ofFloat (x : Float) : Binary :=
  let bits : Nat := x.toBits.toNat
  let fraction : Nat := bits % 0x10000000000000
  let exponent : Nat := bits / 0x10000000000000 % 0x800
  -- The smallest numbers have no leading bit that goes without saying.
  if exponent = 0 then ⟨fraction, -1074, false⟩
  else ⟨fraction + 0x10000000000000, (exponent : Int) - 1075, fraction = 0 ∧ exponent > 1⟩

structure Ratio where
  num : Nat
  den : Nat

def Ratio.scaled (n : Nat) (e : Int) : Ratio :=
  if e ≥ 0 then ⟨n <<< e.toNat, 1⟩ else ⟨n, 1 <<< (-e).toNat⟩

/-- The number of zeros right after the point of `num / den`, in so many turns. -/
def zerosAfterPoint (den : Nat) : Nat → Nat → Nat
  | 0, _ => 0
  | turns + 1, num => if num * 10 ≥ den then 0 else zerosAfterPoint den turns (num * 10) + 1

/-- The number of decimal digits before the point, or minus the number of zeros right after it. -/
def Ratio.pointIn (r : Ratio) : Int :=
  if r.num ≥ r.den then ((toString (r.num / r.den)).length : Int)
  else -(zerosAfterPoint r.den 400 r.num : Int)

/-- The number of grid steps of `10 ^ (point - count)` in a number, rounded down, with what is left
over as a fraction of a step. -/
def Ratio.steps (r : Ratio) (point : Int) (count : Nat) : Nat × Nat × Nat :=
  let e := point - count
  let num := if e < 0 then r.num * Nat.pow 10 (-e).toNat else r.num
  let den := if e < 0 then r.den else r.den * Nat.pow 10 e.toNat
  (num / den, num % den, den)

/-- Whether `n` steps of `10 ^ (point - count)` lie between two numbers, ends included if `ends`. -/
def liesBetween (low high : Ratio) (ends : Bool) (point : Int) (count n : Nat) : Bool :=
  let e := point - count
  let num := if e < 0 then n else n * Nat.pow 10 e.toNat
  let den := if e < 0 then Nat.pow 10 (-e).toNat else 1
  if ends then low.num * den ≤ num * low.den ∧ num * high.den ≤ high.num * den
  else low.num * den < num * low.den ∧ num * high.den < high.num * den

/-- The decimal of a grid that lies in the interval and is nearer to the number, if one does. -/
def onGrid (value low high : Ratio) (ends : Bool) (point : Int) (count : Nat) : Option Nat :=
  let (below, left, step) := value.steps point count
  let lowFits := below > 0 ∧ liesBetween low high ends point count below
  let highFits : Bool := liesBetween low high ends point count (below + 1)
  if lowFits ∧ highFits then
    -- Where both are equally near the even one is taken.
    if 2 * left < step ∨ (2 * left = step ∧ below % 2 = 0) then some below else some (below + 1)
  else if lowFits then some below
  else if highFits then some (below + 1)
  else none

/-- The decimal of the first grid that has one, from grids of `count` digits on; after so many
grids in vain the number is cut off at the last one. -/
def searchGrids (value low high : Ratio) (ends : Bool) (point : Int) : Nat → Nat → Decimal
  | 0, count => ⟨(value.steps point count).1, count, point⟩
  | turns + 1, count =>
    match onGrid value low high ends point count with
    -- What was rounded up may have a digit more, and is then a power of ten.
    | some n => if n = Nat.pow 10 count then ⟨1, 1, point + 1⟩ else ⟨n, count, point⟩
    | none => searchGrids value low high ends point turns (count + 1)

/-- A shortest decimal that stands for a number. -/
def Binary.shortest (b : Binary) : Decimal :=
  let value := Ratio.scaled (4 * b.mantissa) (b.exponent - 2)
  let low := Ratio.scaled (4 * b.mantissa - (if b.narrowBelow then 1 else 2)) (b.exponent - 2)
  let high := Ratio.scaled (4 * b.mantissa + 2) (b.exponent - 2)
  searchGrids value low high (b.mantissa % 2 = 0) value.pointIn 17 1

/-- How a decimal is written: the least and the greatest power of ten of its first digit for which
no exponent is written, and the least number of digits of an exponent. -/
structure Style where
  leastPlain : Int
  greatestPlain : Int
  exponentDigits : Nat

/-- The digits of `n` with zeros in front up to a width. -/
def padded (width n : Nat) : String :=
  let digits := toString n
  String.ofList (List.replicate (width - digits.length) '0') ++ digits

/-- A decimal as text. Without an exponent there is always a point with a digit on either side. -/
def Decimal.render (style : Style) (d : Decimal) : String :=
  let digits := (padded d.count d.digits).toList
  let first := d.point - 1
  if style.leastPlain ≤ first ∧ first ≤ style.greatestPlain then
    if d.point ≤ 0 then
      "0." ++ String.ofList (List.replicate (-d.point).toNat '0' ++ digits)
    else
      let whole := d.point.toNat
      if digits.length ≤ whole then
        String.ofList (digits ++ List.replicate (whole - digits.length) '0') ++ ".0"
      else
        String.ofList (digits.take whole) ++ "." ++ String.ofList (digits.drop whole)
  else
    let rest := digits.drop 1
    String.ofList (digits.take 1) ++ (if rest.isEmpty then "" else "." ++ String.ofList rest)
      ++ (if first < 0 then "e-" else "e+") ++ padded style.exponentDigits first.natAbs

def renderFloat (style : Style) (x : Float) : String :=
  let sign := if x.toBits.toNat ≥ 0x8000000000000000 then "-" else ""
  if x == 0 then sign ++ "0.0" else sign ++ (Binary.ofFloat x).shortest.render style

end DeviceLog.Number
