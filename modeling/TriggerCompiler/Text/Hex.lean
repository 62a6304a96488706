import TriggerCompiler.Arithmetic

/-! Hexadecimal notation of numbers and the digits it is made of. -/

namespace TriggerCompiler.Text

instance neZero_sixteen : NeZero 16 := ⟨by decide⟩

def hexDigit (n : Fin 16) : Char :=
  "0123456789abcdef".toList.getD n.val '0'

/-- The value of a hexadecimal digit in either case. -/
def hexValue? (c : Char) : Option (Fin 16) :=
  let n := c.toNat
  if 48 ≤ n ∧ n ≤ 57 then some (Fin.ofNat 16 (n - 48))
  else if 97 ≤ n ∧ n ≤ 102 then some (Fin.ofNat 16 (n - 87))
  else if 65 ≤ n ∧ n ≤ 70 then some (Fin.ofNat 16 (n - 55))
  else none

theorem hexValue?_hexDigit (n : Fin 16) : hexValue? (hexDigit n) = some n := by
  revert n
  decide

/-- The digits of a number in base 16, lower case, without leading zeros. -/
def hexDigits (n : Nat) : List Char := Nat.toDigits 16 n

/-- The text of a machine address: `0x` and eight upper-case digits. -/
def addressText (n : UInt32) : String :=
  let digits := (hexDigits n.toNat).map Char.toUpper
  "0x" ++ String.ofList (List.replicate (8 - digits.length) '0' ++ digits)

end TriggerCompiler.Text
