import TriggerCompiler.Number.Decimal

/-! IEEE single-precision numbers, kept as their 32 bits: a sign bit, eight bits of exponent and 23
bits of fraction. Two numbers are equal here when their bits are, so `-0.0` and `0.0` differ. -/

namespace TriggerCompiler

structure Single where
  bits : UInt32
deriving DecidableEq, Inhabited

namespace Single

def zero : Single := ⟨0⟩

def isNegative (x : Single) : Bool := 2 ^ 31 ≤ x.bits.toNat

def exponentField (x : Single) : Nat := x.bits.toNat / 2 ^ 23 % 2 ^ 8

def fractionField (x : Single) : Nat := x.bits.toNat % 2 ^ 23

def isFinite (x : Single) : Bool := x.exponentField ≠ 255

/-- The number of a sign and a magnitude that is rounded to single precision. -/
def ofMagnitude (negative : Bool) (magnitude : BinaryNumber) : Single :=
  let x := BinaryNumber.round .single magnitude.numerator magnitude.denominator
  let unsigned :=
    if x.overflows .single then 255 * 2 ^ 23
    else if x.mantissa < 2 ^ 23 then x.mantissa
    else (x.exponent + 150).toNat * 2 ^ 23 + (x.mantissa - 2 ^ 23)
  ⟨UInt32.ofNat (unsigned + if negative then 2 ^ 31 else 0)⟩

def ofInt (n : Int) : Single := ofMagnitude (n < 0) ⟨n.natAbs, 0⟩

def magnitude (x : Single) : BinaryNumber :=
  if x.exponentField = 0 then ⟨x.fractionField, -149⟩
  else ⟨x.fractionField + 2 ^ 23, (x.exponentField : Int) - 150⟩

/-- The reals that round to a finite positive number. The gap below a power of two is half as wide as
the one above it. -/
def interval (x : Single) : Decimal.Interval :=
  let m := x.magnitude
  let scale := 2 ^ m.exponent.toNat
  let narrow := x.fractionField = 0 ∧ 1 < x.exponentField
  { low := (4 * m.mantissa - if narrow then 1 else 2) * scale
    value := 4 * m.mantissa * scale
    high := (4 * m.mantissa + 2) * scale
    den := 4 * m.denominator
    closed := m.mantissa % 2 = 0 }

/-- The text of a number in a given notation: the fewest digits that identify it. -/
def textIn (layout : Decimal.PlainRange) (x : Single) : String :=
  let sign := if x.isNegative then "-" else ""
  if x.exponentField = 255 then
    if x.fractionField = 0 then sign ++ "inf" else "NaN"
  else if x.magnitude.mantissa = 0 then sign ++ "0.0"
  else sign ++ (x.interval.shortest 9).text layout

/-- The text of a number in programs: plain from `0.0001` up to, but not including, `1e16`. -/
def text (x : Single) : String := x.textIn ⟨-4, 15⟩

end Single

end TriggerCompiler
