import TriggerCompiler.Command.Path
import TriggerCompiler.OrderedMap

/-! What the command asks of a file system, and a file system that is held in memory. -/

namespace TriggerCompiler

inductive FileError where
  | notFound
  | denied
  | alreadyExists
  | notDirectory
  | isDirectory
  | nameTooLong
  /-- The file is no text. -/
  | notText
  | other (text : String)
deriving DecidableEq

def FileError.message : FileError → String
  | notFound => "No such file or directory (os error 2)"
  | denied => "Permission denied (os error 13)"
  | alreadyExists => "File exists (os error 17)"
  | notDirectory => "Not a directory (os error 20)"
  | isDirectory => "Is a directory (os error 21)"
  | nameTooLong => "File name too long (os error 36)"
  | notText => "stream did not contain valid UTF-8"
  | other text => text

inductive EntryKind where
  | file
  | directory
deriving DecidableEq

structure FileSystem (m : Type → Type) where
  /-- What a path leads to, if anything. -/
  kind? : String → m (Option EntryKind)
  readFile : String → m (Except FileError String)
  /-- The names in a directory, in any order. -/
  names : String → m (Except FileError (List String))
  /-- Creates a directory and those above it. -/
  createDirectories : String → m (Except FileError Unit)
  writeFile : String → String → m (Except FileError Unit)

/-- Files and directories in memory. An entry is found by the names on the way to it from the top. -/
structure FileTree where
  /-- The files with their text; a directory has none. -/
  entries : OrderedMap (List String) (Option String) := .empty

namespace FileTree

def maxNameLength : Nat := 255

def at? (t : FileTree) (place : List String) : Option (Option String) :=
  if place.isEmpty then some none else t.entries.get? place

/-- Goes from a directory along the parts of a path. The place where the last part leads need not
exist, but every place before it has to be a directory. -/
def follow (t : FileTree) : List String → List Path.Component → Except FileError (List String)
  | place, [] => .ok place
  | place, part :: rest => do
      let next ← match part with
        | .root => pure []
        | .current => pure place
        | .parent => pure place.dropLast
        | .name text =>
            if maxNameLength < text.utf8ByteSize then throw .nameTooLong
            else pure (place ++ [text])
      match t.at? place with
      | none => throw .notFound
      | some (some _) => throw .notDirectory
      | some none => follow t next rest

def place (t : FileTree) (path : String) : Except FileError (List String) := do
  if path.isEmpty then throw .notFound
  let place ← t.follow [] (Path.components path)
  if path.endsWith "/" && (t.at? place).any Option.isSome then throw .notDirectory
  return place

def kind? (t : FileTree) (path : String) : Option EntryKind :=
  match t.place path with
  | .error _ => none
  | .ok place => (t.at? place).map fun text => if text.isSome then .file else .directory

def readFile (t : FileTree) (path : String) : Except FileError String := do
  match t.at? (← t.place path) with
  | none => throw .notFound
  | some none => throw .isDirectory
  | some (some text) => return text

def names (t : FileTree) (path : String) : Except FileError (List String) := do
  let place ← t.place path
  match t.at? place with
  | none => throw .notFound
  | some (some _) => throw .notDirectory
  | some none =>
      return t.entries.keys.filterMap fun p => if p.dropLast = place then p.getLast? else none

/-- Makes sure that directories exist along some names. -/
def addDirectories (t : FileTree) (above : List String) : List String → Except FileError FileTree
  | [] => .ok t
  | name :: rest =>
      let here := above ++ [name]
      if maxNameLength < name.utf8ByteSize then .error .nameTooLong
      else
        match t.at? here with
        | none => addDirectories ⟨t.entries.insert here none⟩ here rest
        | some none => addDirectories t here rest
        | some (some _) => .error (if rest.isEmpty then .alreadyExists else .notDirectory)

/-- The place of a path whose directories need not exist. -/
def placeAhead (path : String) : List String :=
  (Path.components path).foldl
    (fun place part =>
      match part with
      | .root => []
      | .current => place
      | .parent => place.dropLast
      | .name text => place ++ [text])
    []

def createDirectories (t : FileTree) (path : String) : Except FileError FileTree :=
  t.addDirectories [] (placeAhead path)

def writeFile (t : FileTree) (path text : String) : Except FileError FileTree := do
  let place ← t.place path
  match t.at? place with
  | some none => throw .isDirectory
  | _ => return ⟨t.entries.insert place (some text)⟩

/-- The tree of some files, with the directories that they need. -/
def ofFiles (files : List (String × String)) : FileTree :=
  files.foldl
    (fun t e =>
      let place := placeAhead e.1
      match t.addDirectories [] place.dropLast with
      | .ok t => ⟨t.entries.insert place (some e.2)⟩
      | .error _ => t)
    {}

def files (t : FileTree) : List (String × String) :=
  t.entries.entries.filterMap fun e => e.2.map fun text => ("/".intercalate e.1, text)

/-- The operations on a tree that is the state of a computation. -/
def fileSystem : FileSystem (StateM FileTree) where
  kind? path := return (← get).kind? path
  readFile path := return (← get).readFile path
  names path := return (← get).names path
  createDirectories path := change (·.createDirectories path)
  writeFile path text := change (·.writeFile path text)
where
  /-- Keeps the tree if an operation fails. -/
  change (f : FileTree → Except FileError FileTree) : StateM FileTree (Except FileError Unit) := do
    match f (← get) with
    | .ok t =>
        set t
        return .ok ()
    | .error e => return .error e

end FileTree

end TriggerCompiler
