import TriggerCompiler.Number.Binary

/-! Decimal notation: the value of a written number, and the shortest decimal that identifies a binary
number.

A written number is taken as an integer of at most 64 bits times a power of ten; digits that no longer
fit only raise the exponent. Its value in double precision is that integer, rounded, times or divided
by the rounded power of ten.

The shortest decimal of a binary number is found on the grids of 1, 2, … digits: the first grid with
a point among the reals that round to the number gives the digits, and of two such points the nearer
one, the upper one if they are equally near. -/

namespace TriggerCompiler

/-- The number `digits * 10 ^ exponent`. -/
structure Decimal where
  digits : Nat
  exponent : Int
deriving DecidableEq

namespace Decimal

/-- Adds a digit behind the digits of an integer, as long as the result has at most 64 bits. -/
private def absorbDigit (digits digit : Nat) : Option Nat :=
  let next := digits * 10 + digit
  if next < 2 ^ 64 then some next else none

def absorbInteger (start : Decimal) : List Nat → Decimal
  | [] => start
  | digit :: rest =>
      match absorbDigit start.digits digit with
      | some digits => absorbInteger { start with digits } rest
      | none => { start with exponent := start.exponent + 1 + rest.length }

def absorbFraction (start : Decimal) : List Nat → Decimal
  | [] => start
  | digit :: rest =>
      match absorbDigit start.digits digit with
      | some digits => absorbFraction ⟨digits, start.exponent - 1⟩ rest
      | none => start

private def powerOfTen (n : Nat) : BinaryNumber := BinaryNumber.round .double (10 ^ n) 1

/-- Divides by a power of ten, in steps that the format can express. -/
private def shiftDown (value : BinaryNumber) (places : Nat) : BinaryNumber :=
  if places ≤ 308 then value.div .double (powerOfTen places)
  else if value.mantissa = 0 then value
  else shiftDown (value.div .double (powerOfTen 308)) (places - 308)
termination_by places

/-- The value in double precision, or nothing if it is too large for a double. -/
def toDouble? (x : Decimal) : Option BinaryNumber :=
  let start := BinaryNumber.round .double x.digits 1
  if x.exponent < 0 then some (shiftDown start (-x.exponent).toNat)
  else if x.exponent ≤ 308 then
    let value := start.mul .double (powerOfTen x.exponent.toNat)
    if value.overflows .double then none else some value
  else if start.mantissa = 0 then some start
  else none

/-- Removes trailing zeros from the digits. -/
def normalize (x : Decimal) : Decimal :=
  if x.digits = 0 then x
  else if x.digits % 10 = 0 then normalize ⟨x.digits / 10, x.exponent + 1⟩ else x
termination_by x.digits
decreasing_by omega

private def digitCount (n : Nat) : Nat := (Nat.toDigits 10 n).length

/-- The greatest `e` with `10 ^ e ≤ num / den`, for positive `num` and `den`. -/
def floorLog (num den : Nat) : Int :=
  if den ≤ num then (digitCount (num / den) : Int) - 1
  else -(digitCount ((den + num - 1) / num - 1) : Int)

/-- The reals that round to a number: all `x` with `low < x * den < high`, and the two ends if they
are included. -/
structure Interval where
  low : Nat
  value : Nat
  high : Nat
  den : Nat
  closed : Bool

/-- Whether a decimal rounds to the number of the interval. -/
def Interval.holds (i : Interval) (x : Decimal) : Bool :=
  let point := x.digits * 10 ^ x.exponent.toNat * i.den
  let scale := 10 ^ (-x.exponent).toNat
  if i.closed then i.low * scale ≤ point && point ≤ i.high * scale
  else i.low * scale < point && point < i.high * scale

/-- The grid point with `count` digits that represents the interval, if there is one. -/
def Interval.onGrid (i : Interval) (top : Int) (count : Nat) : Option Decimal :=
  let exponent := top + 1 - (count : Int)
  let num := i.value * 10 ^ (-exponent).toNat
  let den := i.den * 10 ^ exponent.toNat
  let below : Decimal := ⟨num / den, exponent⟩
  let above : Decimal := ⟨num / den + 1, exponent⟩
  match i.holds below, i.holds above with
  | true, true => some (if 2 * (num % den) < den then below else above)
  | true, false => some below
  | false, true => some above
  | false, false => none

/-- The shortest decimal in the interval, without trailing zeros; at most `limit` digits are tried. -/
def Interval.shortest (i : Interval) (limit : Nat) : Decimal :=
  let top := floorLog i.value i.den
  ((List.range limit).findSome? fun n => i.onGrid top (n + 1)).elim ⟨0, 0⟩ normalize

/-- Where plain notation ends. -/
structure PlainRange where
  /-- The least exponent of a leading digit that is still written plainly. -/
  leastPlain : Int
  /-- The greatest exponent of a leading digit that is still written plainly. -/
  greatestPlain : Int

/-- The text of a positive decimal without trailing zeros: plain with at least one digit behind the
point, or scientific with no plus sign and no padding. -/
def text (layout : PlainRange) (x : Decimal) : String :=
  let digits := Nat.toDigits 10 x.digits
  let top := x.exponent + digits.length - 1
  let zeros (n : Int) := List.replicate n.toNat '0'
  let chars :=
    if layout.leastPlain ≤ top ∧ top ≤ layout.greatestPlain then
      if 0 ≤ x.exponent then digits ++ zeros x.exponent ++ ['.', '0']
      else if 0 ≤ top then
        digits.take (top.toNat + 1) ++ '.' :: digits.drop (top.toNat + 1)
      else '0' :: '.' :: (zeros (-top - 1) ++ digits)
    else
      let fraction := digits.drop 1
      digits.take 1 ++ (if fraction.isEmpty then [] else '.' :: fraction) ++
        'e' :: (toString top).toList
  String.ofList chars

end Decimal

end TriggerCompiler
