import TriggerCompiler.Json.Basic
import TriggerCompiler.Text.Hex

/-! Writing JSON text, either without any blanks or with one item to a line, indented by two blanks.
Quotes, backslashes and control characters of strings are escaped; everything else stands as it is. -/

namespace TriggerCompiler.Json

def escapeChar (c : Char) : List Char :=
  if c = '"' then ['\\', '"']
  else if c = '\\' then ['\\', '\\']
  else if c = '\x08' then ['\\', 'b']
  else if c = '\x0c' then ['\\', 'f']
  else if c = '\n' then ['\\', 'n']
  else if c = '\r' then ['\\', 'r']
  else if c = '\t' then ['\\', 't']
  else if c.toNat < 32 then
    let digits := Text.hexDigits c.toNat
    ['\\', 'u'] ++ List.replicate (4 - digits.length) '0' ++ digits
  else [c]

def stringText (s : String) : String :=
  "\"" ++ String.ofList (s.toList.flatMap escapeChar) ++ "\""

/-- The written form of a number that is not an integer: plain from `1e-6` up to `1e13`. -/
def realText (x : Single) : String := if x.isFinite then x.textIn ⟨-6, 12⟩ else "null"

/-- How the parts of an array or object are set off from each other. -/
structure Style where
  /-- What follows a key. -/
  colon : String
  /-- What stands before a part and before a closing bracket, by the depth of nesting. -/
  newline : Nat → String

def Style.compact : Style := ⟨":", fun _ => ""⟩

/-- One item to a line, indented by two blanks. -/
def Style.pretty : Style :=
  ⟨": ", fun depth => "\n" ++ String.ofList (List.replicate (2 * depth) ' ')⟩

mutual

/-- Appends the text of a value. -/
def writeTo (style : Style) (depth : Nat) (out : String) : Json → String
  | null => out ++ "null"
  | bool b => out ++ (if b then "true" else "false")
  | int n => out ++ toString n
  | real x => out ++ realText x
  | str s => out ++ stringText s
  | arr [] => out ++ "[]"
  | arr (item :: rest) =>
      let head := writeTo style (depth + 1) (out ++ "[" ++ style.newline (depth + 1)) item
      writeItems style (depth + 1) head rest ++ style.newline depth ++ "]"
  | obj [] => out ++ "\x7b\x7d"
  | obj ((key, value) :: rest) =>
      let head := out ++ "\x7b" ++ style.newline (depth + 1) ++ stringText key ++ style.colon
      writeMembers style (depth + 1) (writeTo style (depth + 1) head value) rest ++
        style.newline depth ++ "\x7d"

def writeItems (style : Style) (depth : Nat) (out : String) : List Json → String
  | [] => out
  | item :: rest =>
      writeItems style depth (writeTo style depth (out ++ "," ++ style.newline depth) item) rest

def writeMembers (style : Style) (depth : Nat) (out : String) : List (String × Json) → String
  | [] => out
  | (key, value) :: rest =>
      let head := out ++ "," ++ style.newline depth ++ stringText key ++ style.colon
      writeMembers style depth (writeTo style depth head value) rest

end

def compress (j : Json) : String := writeTo .compact 0 "" j

def pretty (j : Json) : String := writeTo .pretty 0 "" j

end TriggerCompiler.Json
