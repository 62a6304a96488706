/-! White space and the text without it at its start. -/

namespace TriggerCompiler.Text

def isBlank (c : Char) : Bool :=
  let n := c.toNat
  (9 ≤ n && n ≤ 13) || n = 0x20 || n = 0x85 || n = 0xA0 || n = 0x1680 || (0x2000 ≤ n && n ≤ 0x200A) ||
    n = 0x2028 || n = 0x2029 || n = 0x202F || n = 0x205F || n = 0x3000

/-- The text from its first character on that is not white space. -/
def dropBlanks (s : String) : String := String.ofList (s.toList.dropWhile isBlank)

def allBlank (s : String) : Bool := s.toList.all isBlank

end TriggerCompiler.Text
