import TriggerCompiler.Command.Run

/-! The program: it connects the command with the files of the machine. -/

namespace TriggerCompiler.Command

/-- The failure that a code of the operating system stands for; some operations negate the code. -/
def failureOfCode (code : UInt32) (text : String) : FileError :=
  let code := if code.toNat < 2 ^ 31 then code else 0 - code
  match code with
  | 2 => .notFound
  | 13 => .denied
  | 17 => .alreadyExists
  | 20 => .notDirectory
  | 21 => .isDirectory
  | 36 => .nameTooLong
  | _ => .other s!"{text} (os error {code})"

def failureOf : IO.Error → FileError
  | .alreadyExists _ code text | .invalidArgument _ code text | .permissionDenied _ code text
  | .resourceExhausted _ code text | .inappropriateType _ code text | .noSuchThing _ code text
  | .interrupted _ code text | .noFileOrDirectory _ code text => failureOfCode code text
  | .otherError code text | .resourceBusy code text | .resourceVanished code text
  | .unsupportedOperation code text | .hardwareFault code text | .unsatisfiedConstraints code text
  | .illegalOperation code text | .protocolError code text | .timeExpired code text =>
      failureOfCode code text
  | .unexpectedEof => .other "unexpected end of file"
  | .userError _ => .notText

def guarded {α : Type} (act : IO α) : IO (Except FileError α) := do
  try return .ok (← act)
  catch e => return .error (failureOf e)

def kindOf (path : String) : IO (Option EntryKind) := do
  try
    let place ← IO.FS.realPath path
    if ← place.isDir then return some .directory
    if ← place.pathExists then return some .file
    return none
  catch _ => return none

/-- Creates a directory and those above it, unless it is there. -/
def makeDirectories (path : String) : IO Unit := do
  try IO.FS.createDir path
  catch e =>
    if failureOf e = .notFound then IO.FS.createDirAll path
    else unless (← kindOf path) = some .directory do throw e

def machineFiles : FileSystem IO where
  kind? := kindOf
  readFile path := guarded (IO.FS.readFile path)
  names path := guarded do
    let entries ← (← IO.FS.realPath path).readDir
    return entries.toList.map fun entry => entry.fileName
  createDirectories path := guarded (makeDirectories path)
  writeFile path text := guarded (IO.FS.writeFile path text)

end TriggerCompiler.Command

open TriggerCompiler Command in
def main (args : List String) : IO UInt32 := do
  match parse ⟨true⟩ args with
  | .error e =>
      IO.eprintln s!"error: {e.message}\n\nFor more information, try '--help'."
      return 2
  | .ok invocation =>
      let (result, printed) ← transcript machineFiles 1 invocation
      IO.print printed.out
      IO.eprint printed.err
      if let .error e := result then IO.eprintln e.message
      return exitCode result
