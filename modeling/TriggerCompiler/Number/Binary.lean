import TriggerCompiler.Arithmetic

/-! Numbers of the form `m * 2 ^ e` and the rounding of a fraction to such a number. A binary
floating-point format is given by the number of bits of `m` and the least `e`; rounding takes the
nearest number of the format and, of two equally near ones, the one with even `m`. All arithmetic is
exact arithmetic on naturals. -/

namespace TriggerCompiler

/-- The number `mantissa * 2 ^ exponent`. -/
structure BinaryNumber where
  mantissa : Nat
  exponent : Int
deriving DecidableEq

/-- A binary floating-point format without its sign. -/
structure BinaryFormat where
  /-- Bits of a mantissa. -/
  precision : Nat
  /-- Exponent of the smallest positive number. -/
  leastExponent : Int
  /-- Exponent of the largest number. -/
  greatestExponent : Int

namespace BinaryFormat

def double : BinaryFormat := ⟨53, -1074, 971⟩

def single : BinaryFormat := ⟨24, -149, 104⟩

end BinaryFormat

namespace BinaryNumber

def numerator (x : BinaryNumber) : Nat := x.mantissa * 2 ^ x.exponent.toNat

def denominator (x : BinaryNumber) : Nat := 2 ^ (-x.exponent).toNat

/-- The greatest `e` with `2 ^ e ≤ num / den`, for positive `num` and `den`. -/
def floorLog (num den : Nat) : Int :=
  let guess : Int := (num.log2 : Int) - (den.log2 : Int)
  if den * 2 ^ guess.toNat ≤ num * 2 ^ (-guess).toNat then guess else guess - 1

/-- The number of the format nearest to `num / den`, ties to even. The exponent of the result may
exceed the greatest exponent of the format; `overflows` tells. -/
def round (format : BinaryFormat) (num den : Nat) : BinaryNumber :=
  if num = 0 then ⟨0, format.leastExponent⟩
  else
    let exponent := max format.leastExponent (floorLog num den - (format.precision - 1 : Nat))
    let scaledNum := num * 2 ^ (-exponent).toNat
    let scaledDen := den * 2 ^ exponent.toNat
    let quotient := scaledNum / scaledDen
    let remainder := scaledNum % scaledDen
    let up := scaledDen < 2 * remainder || (scaledDen = 2 * remainder && quotient % 2 = 1)
    let mantissa := if up then quotient + 1 else quotient
    if mantissa = 2 ^ format.precision then ⟨2 ^ (format.precision - 1), exponent + 1⟩
    else ⟨mantissa, exponent⟩

/-- Whether a rounded number lies beyond the largest number of the format. -/
def overflows (format : BinaryFormat) (x : BinaryNumber) : Bool := format.greatestExponent < x.exponent

def mul (format : BinaryFormat) (x y : BinaryNumber) : BinaryNumber :=
  round format (x.numerator * y.numerator) (x.denominator * y.denominator)

def div (format : BinaryFormat) (x y : BinaryNumber) : BinaryNumber :=
  round format (x.numerator * y.denominator) (x.denominator * y.numerator)

end BinaryNumber

end TriggerCompiler
