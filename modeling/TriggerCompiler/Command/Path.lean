/-! Paths of files, with a slash between the names. -/

namespace TriggerCompiler.Path

inductive Component where
  | root
  | current
  | parent
  | name (text : String)
deriving DecidableEq

def segments (path : String) : List String :=
  let (done, last) := path.toList.foldr
    (fun c (done, word) => if c = '/' then (String.ofList word :: done, []) else (done, c :: word))
    ([], [])
  (String.ofList last) :: done

private def componentOf? (text : String) : Option Component :=
  if text = "" || text = "." then none
  else if text = ".." then some .parent
  else some (.name text)

/-- The parts of a path. Repeated separators count once, and the current directory counts only at the
start. -/
def components (path : String) : List Component :=
  match segments path with
  | "" :: rest => (if rest.isEmpty then [] else [.root]) ++ rest.filterMap componentOf?
  | "." :: rest => .current :: rest.filterMap componentOf?
  | parts => parts.filterMap componentOf?

/-- The path of a name inside a directory; an absolute name stands for itself. -/
def join (directory name : String) : String :=
  if name.startsWith "/" || directory = "" then name
  else if directory.endsWith "/" then directory ++ name
  else directory ++ "/" ++ name

def fileName? (path : String) : Option String :=
  match (components path).getLast? with
  | some (.name text) => some text
  | _ => none

/-- What follows the last dot of a file's name; a dot at the start of the name does not count. -/
def extension? (path : String) : Option String := do
  let letters := (← fileName? path).toList.reverse
  let ending := letters.takeWhile (· ≠ '.')
  match letters.drop ending.length with
  | _ :: _ :: _ => some (String.ofList ending.reverse)
  | _ => none

private def Component.rank : Component → Nat × String
  | .root => (0, "")
  | .current => (1, "")
  | .parent => (2, "")
  | .name text => (3, text)

def Component.listLe : List Component → List Component → Bool
  | [], _ => true
  | _ :: _, [] => false
  | a :: as, b :: bs =>
      if a = b then listLe as bs
      else a.rank.1 < b.rank.1 || (a.rank.1 = b.rank.1 && a.rank.2 < b.rank.2)

def le (a b : String) : Bool := Component.listLe (components a) (components b)

private def dropSame : List String → List String
  | [] => []
  | path :: rest =>
      match dropSame rest with
      | [] => [path]
      | next :: tail => if components path = components next then path :: tail else path :: next :: tail

/-- Paths in order; of those with the same parts the first remains. -/
def sorted (paths : List String) : List String := dropSame (paths.mergeSort le)

end TriggerCompiler.Path
