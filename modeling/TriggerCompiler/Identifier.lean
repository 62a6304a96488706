/-! Identifiers of variables and events: an ASCII letter or underscore, then ASCII letters, digits and
underscores. -/

namespace TriggerCompiler

private def isLetter (c : Char) : Bool := c.isAlpha || c = '_'

def isLegalIdentifier (name : String) : Bool :=
  match name.toList with
  | [] => false
  | c :: rest => isLetter c && rest.all fun c => isLetter c || c.isDigit

/-- Whether a name has two underscores in a row, as the names that the compiler makes up. -/
def hasDoubleUnderscore (name : String) : Bool := find name.toList
where
  find : List Char → Bool
    | '_' :: '_' :: _ => true
    | _ :: rest => find rest
    | [] => false

def startsWithUnderscore (name : String) : Bool := name.toList.head? = some '_'

end TriggerCompiler
