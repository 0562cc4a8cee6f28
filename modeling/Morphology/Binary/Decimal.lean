import Morphology.Binary.Basic

/-!
Decimal text of binary numbers: the fewest digits that read back as the same number of the format,
and of those the nearest.
-/

namespace Morphology.Binary

/-- An integer times a power of ten. -/
structure Decimal where
  digits : Nat
  exponent : Int
deriving DecidableEq

/-- A magnitude and the two ends of the interval that rounds to it, over one denominator. -/
structure Interval where
  low : Nat
  value : Nat
  high : Nat
  denominator : Nat
  closed : Bool

namespace Interval

/-- Each end lies half way to the next magnitude and belongs to the even one. -/
def around (f : BinaryFormat) (magnitude : Nat) : Interval where
  low := units f (magnitude - 1) + units f magnitude
  value := 2 * units f magnitude
  high := units f magnitude + units f (magnitude + 1)
  denominator := 1 <<< (f.unitExponent + 1)
  closed := magnitude % 2 = 0

/-- The exponent of the leading decimal digit. -/
def leading (i : Interval) : Int :=
  let width n := (Nat.toDigits 10 n).length
  if i.denominator ≤ i.value then width (i.value / i.denominator) - 1
  else -(width ((i.denominator - 1) / i.value) : Int)

/-- The point nearest to the value on the grid of multiples of a power of ten, if one lies in the
interval. Half way between two points the upper one is taken. -/
def point? (i : Interval) (exponent : Int) : Option Decimal :=
  let step := Nat.pow 10 exponent.toNat * i.denominator
  let scale := Nat.pow 10 (-exponent).toNat
  let inside x :=
    if i.closed then i.low * scale ≤ x * step && x * step ≤ i.high * scale
    else i.low * scale < x * step && x * step < i.high * scale
  let below := i.value * scale / step
  let nearer := if 2 * (i.value * scale % step) < step then below else below + 1
  let other := if nearer = below then below + 1 else below
  if inside nearer then some ⟨nearer, exponent⟩
  else if inside other then some ⟨other, exponent⟩
  else none

end Interval

/-- Seventeen digits are enough for every number of the two formats. -/
def mostDigits : Nat := 17

def shortest (f : BinaryFormat) (magnitude : Nat) : Decimal :=
  let interval := Interval.around f magnitude
  let exponents := (List.range mostDigits).map fun (extra : Nat) => interval.leading - extra
  (exponents.findSome? interval.point?).getD ⟨0, 0⟩

/-! ## Layout -/

structure Layout where
  /-- Which exponents of the leading digit are written without an exponent. -/
  positional : Int → Bool
  /-- Whether an integer is written with a point and a zero. -/
  point : Bool

/-- Numbers from 10⁻⁴ up to, but not including, 10¹⁶ are written without an exponent, and integers
with a point. -/
def Layout.compact : Layout :=
  ⟨fun exponent => -4 ≤ exponent && exponent < 16, true⟩

/-- No exponent is written, and integers have no point. -/
def Layout.plain : Layout :=
  ⟨fun _ => true, false⟩

def zeros (n : Nat) : List Char :=
  List.replicate n '0'

/-- The digits of a decimal without trailing zeros, and the exponent of the first. -/
def Decimal.significant (d : Decimal) : List Char × Int :=
  let digits := Nat.toDigits 10 d.digits
  ((digits.reverse.dropWhile (· = '0')).reverse, d.exponent + digits.length - 1)

def positionalText (point : Bool) (digits : List Char) (exponent : Int) : List Char :=
  if exponent < 0 then '0' :: '.' :: zeros (-exponent - 1).toNat ++ digits
  else
    let whole := exponent.toNat + 1
    let fraction := digits.drop whole
    digits.take whole ++ zeros (whole - digits.length)
      ++ (if fraction.isEmpty then (if point then ['.', '0'] else []) else '.' :: fraction)

def scientificText (digits : List Char) (exponent : Int) : List Char :=
  let fraction := digits.drop 1
  digits.take 1 ++ (if fraction.isEmpty then [] else '.' :: fraction)
    ++ 'e' :: (toString exponent).toList

def Layout.magnitudeText (layout : Layout) (f : BinaryFormat) (magnitude : Nat) : List Char :=
  if magnitude = 0 then positionalText layout.point ['0'] 0
  else
    let (digits, exponent) := (shortest f magnitude).significant
    if layout.positional exponent then positionalText layout.point digits exponent
    else scientificText digits exponent

def Layout.text {f : BinaryFormat} (layout : Layout) : Binary f → String
  | nan => "NaN"
  | number negative magnitude =>
      let unsigned :=
        if magnitude.val = f.infinity then ['i', 'n', 'f']
        else layout.magnitudeText f magnitude
      String.ofList (if negative then '-' :: unsigned else unsigned)

end Morphology.Binary
