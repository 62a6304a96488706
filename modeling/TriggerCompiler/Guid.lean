import TriggerCompiler.Json.Decode
import TriggerCompiler.Text.Hex

/-! Globally unique identifiers: 32 hexadecimal digits. They are written in lower case in groups of 8,
4, 4, 4 and 12 with hyphens between the groups, and read in either case with the hyphens, with hyphens
inside braces, with hyphens behind `urn:uuid:`, or without any hyphen. -/

namespace TriggerCompiler

structure Guid where
  digits : List (Fin 16)
  length_digits : digits.length = 32
deriving DecidableEq

namespace Guid

def ofDigits? (digits : List (Fin 16)) : Option Guid :=
  if h : digits.length = 32 then some ⟨digits, h⟩ else none

/-- The characters of the written form. -/
def chars (g : Guid) : List Char :=
  let cs := g.digits.map Text.hexDigit
  cs.take 8 ++ '-' :: ((cs.drop 8).take 4 ++ '-' :: ((cs.drop 12).take 4 ++ '-' ::
    ((cs.drop 16).take 4 ++ '-' :: cs.drop 20)))

def text (g : Guid) : String := String.ofList g.chars

private def hyphenated? (cs : List Char) : Option Guid := do
  guard (cs.length = 36)
  let hyphens := [cs[8]?, cs[13]?, cs[18]?, cs[23]?]
  guard (hyphens.all (· = some '-'))
  let digits := cs.take 8 ++ (cs.drop 9).take 4 ++ (cs.drop 14).take 4 ++ (cs.drop 19).take 4 ++
    cs.drop 24
  ofDigits? (← digits.mapM Text.hexValue?)

def parse? (s : String) : Option Guid :=
  let cs := s.toList
  if cs.length = 32 then (cs.mapM Text.hexValue?).bind ofDigits?
  else if cs.length = 36 then hyphenated? cs
  else if cs.length = 38 then
    if cs.head? = some '\x7b' ∧ cs.getLast? = some '\x7d' then hyphenated? (cs.drop 1).dropLast
    else none
  else if cs.take 9 = "urn:uuid:".toList then hyphenated? (cs.drop 9)
  else none

def toJson (g : Guid) : Json := .str g.text

def ofJson? (j : Json) : Option Guid := j.string?.bind parse?

end Guid

end TriggerCompiler
