/-!
Binary floating-point numbers in the single and double interchange formats. A number is a sign and
a magnitude, the bit pattern without the sign; finite arithmetic is exact in units of the least
subnormal and then rounded to nearest, ties to even.
-/

namespace Morphology

inductive BinaryFormat where
  | single
  | double
deriving DecidableEq

namespace BinaryFormat

def fractionBits : BinaryFormat → Nat
  | single => 23
  | double => 52

def exponentBits : BinaryFormat → Nat
  | single => 8
  | double => 11

def infinity (f : BinaryFormat) : Nat :=
  (1 <<< f.exponentBits - 1) <<< f.fractionBits

/-- The unit of a format is two to the minus this many. -/
def unitExponent (f : BinaryFormat) : Nat :=
  1 <<< (f.exponentBits - 1) - 2 + f.fractionBits

theorem infinity_pos (f : BinaryFormat) : 0 < f.infinity := by
  cases f <;> decide

end BinaryFormat

/-- All patterns that are no number are one value. -/
inductive Binary (f : BinaryFormat) where
  | nan
  | number (negative : Bool) (magnitude : Fin (f.infinity + 1))
deriving DecidableEq

namespace Binary

variable {f : BinaryFormat}

def ofBits (f : BinaryFormat) (bits : Nat) : Binary f :=
  let signBit := 1 <<< (f.exponentBits + f.fractionBits)
  let magnitude := bits % signBit
  if h : magnitude < f.infinity + 1 then number (bits / signBit % 2 = 1) ⟨magnitude, h⟩ else nan

def toBits? : Binary f → Option Nat
  | nan => none
  | number negative magnitude =>
      let signBit := 1 <<< (f.exponentBits + f.fractionBits)
      some (if negative then signBit + magnitude else magnitude)

/-- The two zeros have one rank. -/
def rank : Binary f → Option Int
  | nan => none
  | number negative magnitude => some (if negative then -(magnitude : Int) else magnitude)

/-! ## Units -/

def units (f : BinaryFormat) (magnitude : Nat) : Nat :=
  let hidden := 1 <<< f.fractionBits
  if magnitude < 2 * hidden then magnitude
  else (hidden + magnitude % hidden) <<< (magnitude / hidden - 1)

/-- The integer nearest to `x / 2 ^ k`, of two the even one. -/
def halfEven (x k : Nat) : Nat :=
  let divisor := 1 <<< k
  let quotient := x / divisor
  let excess := 2 * (x % divisor)
  if divisor < excess ∨ (divisor = excess ∧ quotient % 2 = 1) then quotient + 1 else quotient

/-- The magnitude nearest to a number of units; what lies beyond the finite range is infinite. -/
def ofUnits (f : BinaryFormat) (x : Nat) : Fin (f.infinity + 1) :=
  let shift := x.log2 - f.fractionBits
  ⟨min (shift <<< f.fractionBits + halfEven x shift) f.infinity, by omega⟩

def signedUnits (f : BinaryFormat) (negative : Bool) (magnitude : Nat) : Int :=
  if negative then -(units f magnitude : Int) else units f magnitude

/-! ## Arithmetic -/

def zero : Binary f :=
  number false ⟨0, by omega⟩

def one (f : BinaryFormat) : Binary f :=
  number false (ofUnits f (1 <<< f.unitExponent))

def largest (negative : Bool) : Binary f :=
  number negative ⟨f.infinity - 1, by omega⟩

def neg : Binary f → Binary f
  | nan => nan
  | number negative magnitude => number (!negative) magnitude

def abs : Binary f → Binary f
  | nan => nan
  | number _ magnitude => number false magnitude

/-- A sum of zero is negative only if both terms are. -/
def add : Binary f → Binary f → Binary f
  | nan, _ => nan
  | _, nan => nan
  | number s a, number t b =>
      if a.val = f.infinity then
        if b.val = f.infinity ∧ s ≠ t then nan else number s a
      else if b.val = f.infinity then number t b
      else
        let sum := signedUnits f s a + signedUnits f t b
        number (if sum = 0 then s && t else sum < 0) (ofUnits f sum.natAbs)

def sub (a b : Binary f) : Binary f :=
  add a b.neg

end Binary

end Morphology
