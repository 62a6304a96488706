import TriggerCompiler.Text.Hex
import TriggerCompiler.Text.Printable

/-! Quoted text: a string between double quotes in which the quote and the backslash are escaped, tab,
carriage return, line feed and NUL have their one-letter escapes, and every other character without a
visible form is written as its code point in braces. -/

namespace TriggerCompiler.Text

def quoteChar (c : Char) : List Char :=
  if c = '"' then ['\\', '"']
  else if c = '\\' then ['\\', '\\']
  else if c = '\t' then ['\\', 't']
  else if c = '\r' then ['\\', 'r']
  else if c = '\n' then ['\\', 'n']
  else if c = '\x00' then ['\\', '0']
  else if isPrintable c then [c]
  else ['\\', 'u', '\x7b'] ++ hexDigits c.toNat ++ ['\x7d']

def quote (s : String) : String :=
  String.ofList ('"' :: (s.toList.flatMap quoteChar ++ ['"']))

end TriggerCompiler.Text
