import TriggerCompiler.Command.FileSystem

/-! Patterns for the paths of files. In a name, a question mark stands for one character, an asterisk
for any number of them, and brackets for one out of several; two asterisks as a whole name stand for any
number of directories. -/

namespace TriggerCompiler

/-- A character, or the characters between two, inside brackets. -/
inductive CharRange where
  | single (c : Char)
  | between (first last : Char)
deriving DecidableEq

inductive NamePiece where
  | char (c : Char)
  | anyChar
  | anyText
  /-- Any number of directories; it is a pattern of its own. -/
  | directories
  | oneOf (ranges : List CharRange)
  | noneOf (ranges : List CharRange)
deriving DecidableEq

inductive PatternError where
  | stars (position : Nat)
  | lonelyStars (position : Nat)
  | range (position : Nat)
deriving DecidableEq

def PatternError.message : PatternError → String
  | stars n => located n "wildcards are either regular `*` or recursive `**`"
  | lonelyStars n => located n "recursive wildcards must form a single path component"
  | range n => located n "invalid range pattern"
where
  located (position : Nat) (text : String) : String :=
    s!"Pattern syntax error near position {position}: {text}"

namespace CharRange

def holds (r : CharRange) (c : Char) : Bool :=
  match r with
  | single d => c = d
  | between first last => first ≤ c && c ≤ last

/-- Reads the text between brackets. -/
def listOf : List Char → List CharRange
  | a :: '-' :: b :: rest => between a b :: listOf rest
  | a :: rest => single a :: listOf rest
  | [] => []

end CharRange

abbrev NamePattern := List NamePiece

namespace NamePattern

/-- Splits the text behind an opening bracket: whether it starts with an exclamation mark, the text in
the brackets, and what follows. The first character in the brackets may be a closing bracket. -/
def bracket? : List Char → Option (Bool × List Char × List Char)
  | '!' :: c :: rest => close? true c rest
  | ['!'] => none
  | c :: rest => close? false c rest
  | [] => none
where
  /-- Looks for the closing bracket behind the first character. -/
  close? (negated : Bool) (first : Char) (rest : List Char) : Option (Bool × List Char × List Char) :=
    let inside := rest.takeWhile (· ≠ ']')
    match rest.drop inside.length with
    | _ :: after => some (negated, first :: inside, after)
    | [] => none

theorem length_lt_of_bracket? {cs inside after : List Char} {negated : Bool}
    (h : bracket? cs = some (negated, inside, after)) : after.length < cs.length + 1 := by
  have hclose : ∀ {b : Bool} {c : Char} {rest : List Char},
      bracket?.close? b c rest = some (negated, inside, after) → after.length < rest.length := by
    intro b c rest h
    simp only [bracket?.close?] at h
    split at h
    · next d tail heq =>
        obtain ⟨-, -, rfl⟩ := by simpa using h
        have := congrArg List.length heq
        simp only [List.length_drop, List.length_cons] at this
        omega
    · simp at h
  unfold bracket? at h
  split at h
  · have := hclose h
    simp only [List.length_cons]
    omega
  · simp at h
  · have := hclose h
    simp only [List.length_cons]
    omega
  · simp at h

/-- Reads a pattern from a position on, behind a character. -/
def parseFrom (position : Nat) (before : Option Char) : List Char → Except PatternError NamePattern
  | [] => .ok []
  | '?' :: rest => do return .anyChar :: (← parseFrom (position + 1) (some '?') rest)
  | '*' :: '*' :: '*' :: _ => .error (.stars (position + 2))
  | '*' :: '*' :: rest =>
      if before.all (· = '/') then
        match rest with
        | [] => .ok [.directories]
        | '/' :: rest => do return .directories :: (← parseFrom (position + 3) (some '/') rest)
        | _ :: _ => .error (.lonelyStars (position + 2))
      else .error (.lonelyStars (position - 1))
  | '*' :: rest => do return .anyText :: (← parseFrom (position + 1) (some '*') rest)
  | '[' :: rest =>
      match _h : bracket? rest with
      | none => .error (.range position)
      | some (negated, inside, after) => do
          let ranges := CharRange.listOf inside
          let piece := if negated then NamePiece.noneOf ranges else .oneOf ranges
          return piece :: (← parseFrom (position + 1 + (rest.length - after.length)) (some ']') after)
  | c :: rest => do return .char c :: (← parseFrom (position + 1) (some c) rest)
termination_by cs => cs.length
decreasing_by
  all_goals simp only [List.length_cons]
  all_goals first
    | exact length_lt_of_bracket? _h
    | omega

def parse (text : String) : Except PatternError NamePattern := parseFrom 0 none text.toList

def accepts : NamePattern → List Char → Bool
  | [], cs => cs.isEmpty
  | .anyText :: ps, cs =>
      accepts ps cs ||
        match cs with
        | [] => false
        | _ :: rest => accepts (.anyText :: ps) rest
  | .directories :: ps, cs => accepts ps cs
  | _ :: _, [] => false
  | .char d :: ps, c :: rest => c = d && accepts ps rest
  | .anyChar :: ps, _ :: rest => accepts ps rest
  | .oneOf ranges :: ps, c :: rest => ranges.any (·.holds c) && accepts ps rest
  | .noneOf ranges :: ps, c :: rest => !ranges.any (·.holds c) && accepts ps rest
termination_by ps cs => ps.length + cs.length
decreasing_by all_goals (simp only [List.length_cons]; omega)

def literal? (p : NamePattern) : Option String :=
  (p.mapM charOf?).map String.ofList
where
  charOf? : NamePiece → Option Char
    | .char c => some c
    | _ => none

def isDirectories (p : NamePattern) : Bool := p.contains .directories

end NamePattern

/-- A pattern for paths: where it starts, and a pattern for each name. -/
structure PathPattern where
  start : String
  names : List NamePattern
  /-- Whether only directories are meant. -/
  onlyDirectories : Bool

namespace PathPattern

def parse (text : String) : Except PatternError PathPattern := do
  let _ ← NamePattern.parse text
  let slashes := text.toList.takeWhile (· = '/')
  let relative := String.ofList (text.toList.drop slashes.length)
  let parts := match (Path.segments relative).reverse with
    | "" :: rest => rest.reverse
    | parts => parts.reverse
  let names ← parts.mapM NamePattern.parse
  return {
    start := if slashes.isEmpty then "." else "/"
    names := if relative.isEmpty then [[]] else names
    onlyDirectories := text.endsWith "/" }

variable {m : Type → Type} [Monad m]

/-- How many directories deep the search goes; no path has more names. -/
def maxDepth : Nat := 2048

def isHere (path : String) : Bool := Path.components path = [.current]

/-- The path of a name inside a directory, without the current directory at its start. -/
def step (path name : String) : String := if isHere path then name else Path.join path name

/-- The entries of a directory with their paths; nothing if it cannot be read. -/
def children (fs : FileSystem m) (path : String) : m (List (String × String)) := do
  match ← fs.names path with
  | .ok names => return names.map fun name => (name, step path name)
  | .error _ => return []

/-- The entries below a directory with their paths. -/
def descendants (fs : FileSystem m) : Nat → String → m (List (String × String))
  | 0, _ => return []
  | depth + 1, path => do
      let found ← children fs path
      let below ← found.mapM fun e => do
        match ← fs.kind? e.2 with
        | some .directory => descendants fs depth e.2
        | _ => return []
      return found ++ below.flatten

def existsIn (fs : FileSystem m) (path name : String) : m Bool := do
  if name = "." || name = ".." then return (← fs.kind? path) = some .directory
  else return (← fs.kind? (step path name)).isSome

mutual

/-- The paths that fit the patterns of the names from a directory on. -/
def search (fs : FileSystem m) (path : String) : List NamePattern → m (List String)
  | [] => return [path]
  | p :: rest => do
      match p.literal? with
      | some name =>
          if ← existsIn fs path name then search fs (step path name) rest else return []
      | none =>
          if p.isDirectories then
            searchBelow fs (← descendants fs maxDepth path) rest
          else
            let found := (← children fs path).filter fun e => p.accepts e.1.toList
            let special := if p.head? = some (.char '.') then
                [".", ".."].filter fun name => p.accepts name.toList
              else []
            let paths := found.map Prod.snd ++ special.map (Path.join path)
            return (← paths.mapM fun next => search fs next rest).flatten

/-- The paths that fit the patterns behind any number of directories. -/
def searchBelow (fs : FileSystem m) (found : List (String × String)) :
    List NamePattern → m (List String)
  | [] => (found.map Prod.snd).filterM fun path => return (← fs.kind? path) = some .directory
  | p :: rest => do
      if p.isDirectories then searchBelow fs found rest
      else
        let fitting := found.filter fun e => p.accepts e.1.toList
        return (← fitting.mapM fun e => search fs e.2 rest).flatten

end

def files (fs : FileSystem m) (p : PathPattern) : m (List String) := do
  if p.onlyDirectories then return []
  (← search fs p.start p.names).filterM fun path => return (← fs.kind? path) = some .file

end PathPattern

end TriggerCompiler
