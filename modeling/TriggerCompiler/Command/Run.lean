import TriggerCompiler.Batch.Basic
import TriggerCompiler.Command.Pattern
import TriggerCompiler.Command.Table
import TriggerCompiler.Command.Usage
import TriggerCompiler.Json.Reader
import TriggerCompiler.Json.Writer

/-! The subcommands, over any file system. What they print is collected, and a failure keeps what has
been printed and written before it. -/

namespace TriggerCompiler.Command

inductive CommandError where
  | noSubcommand
  /-- A file could not be read; `what` names it. -/
  | unreadable (what : String) (cause : FileError)
  /-- A file holds something else than it should. -/
  | malformed (what : String)
  | unreadableDirectory (cause : FileError)
  | manifest (cause : ManifestError)
  | manifestIn (path : String) (cause : ManifestError)
  | badPattern (pattern : String) (cause : PatternError)
  | noMatch (pattern : String)
  | cannotCreate (path : String) (cause : FileError)
  | cannotWrite (path : String) (cause : FileError)
deriving DecidableEq

def CommandError.message : CommandError → String
  | noSubcommand => "No valid subcommand was used. Use --help for more information."
  | unreadable what cause => s!"read {what}: {cause.message}"
  | malformed what => s!"parse {what}: unexpected content"
  | unreadableDirectory cause => s!"read dir: {cause.message}"
  | manifest cause => cause.message
  | manifestIn path cause => s!"{path}: {cause.message}"
  | badPattern pattern cause => s!"bad pattern '{pattern}': {cause.message}"
  | noMatch pattern => s!"no program matches '{pattern}'"
  | cannotCreate path cause => s!"create {path}: {cause.message}"
  | cannotWrite path cause => s!"write {path}: {cause.message}"

/-- What has been printed. -/
structure Transcript where
  out : String := ""
  err : String := ""
deriving DecidableEq

/-- A subcommand that prints and may stop. -/
abbrev Job (m : Type → Type) := ExceptT CommandError (StateT Transcript m)

variable {m : Type → Type} [Monad m]

def print (line : String) : Job m Unit := modify fun t => { t with out := t.out ++ line ++ "\n" }

def printMessage (line : String) : Job m Unit :=
  modify fun t => { t with err := t.err ++ line ++ "\n" }

def ask {α : Type} (request : m (Except FileError α)) (failure : FileError → CommandError) :
    Job m α := do
  match ← (liftM request : Job m (Except FileError α)) with
  | .ok a => return a
  | .error e => throw (failure e)

def readJson {α : Type} (fs : FileSystem m) (path what : String) (read : Json → Option α) :
    Job m α := do
  let text ← ask (fs.readFile path) (.unreadable what)
  match (Json.parse? text).bind read with
  | some a => return a
  | none => throw (.malformed what)

/-- The manifests in a directory, with their paths; none if there is no such directory. -/
def manifestsIn (fs : FileSystem m) (directory : String) : Job m (List (Manifest × String)) := do
  match ← (liftM (fs.kind? directory) : Job m (Option EntryKind)) with
  | none => return []
  | some _ =>
      let names ← ask (fs.names directory) .unreadableDirectory
      let paths := names.map (Path.join directory)
      let found := (paths.filter fun path => Path.extension? path = some "json").mergeSort Path.le
      found.mapM fun path => do
        let manifest ← readJson fs path "manifest" Manifest.ofJson?
        match manifest.validate with
        | .ok () => return (manifest, path)
        | .error e => throw (.manifest e)

/-- The actions of the compiler and those of the manifests in a directory. -/
def loadCatalogue (fs : FileSystem m) : Option String → Job m Catalogue
  | none => return .builtin
  | some directory => do
      (← manifestsIn fs directory).foldlM
        (fun catalogue (manifest, path) =>
          match catalogue.register manifest with
          | .ok catalogue => return catalogue
          | .error e => throw (.manifestIn path e))
        .builtin

/-- The files that some patterns mean; each pattern has to mean at least one. -/
def expandInputs (fs : FileSystem m) (patterns : List String) : Job m (List String) := do
  let found ← patterns.mapM fun text => do
    match PathPattern.parse text with
    | .error e => throw (.badPattern text e)
    | .ok pattern =>
        let files ← (liftM (pattern.files fs) : Job m (List String))
        if files.isEmpty then throw (.noMatch text)
        return files
  return Path.sorted found.flatten

def loadSettings (fs : FileSystem m) (o : BuildOptions) : Job m Settings := do
  let settings ← match o.settings with
    | some path => readJson fs path "settings" Settings.ofJson?
    | none => pure {}
  return { settings with
    threads := o.threads <|> settings.threads
    autoRequestSerialization := !o.noAutoSerialization && settings.autoRequestSerialization
    includeEventHooks := !o.noEventHooks && settings.includeEventHooks }

def summaryTable (report : BatchReport) : Table where
  header := ["Program", "Status", "Methods", "Heap", "Network", "Warnings", "Errors"]
  rows := report.programs.entries.map fun (key, program) => [
    key,
    if program.isSuccess then "ok" else "failed",
    toString program.exportedMethods.length,
    toString program.heapDefaults.length,
    if program.requiresNetwork then "yes" else "no",
    toString program.warnings.length,
    toString program.errors.length]

def catalogueTable (c : Catalogue) : Table where
  header := ["Action", "Parameters", "Notes"]
  rows := c.primitives.values.map actionRow ++ c.events.values.map eventRow
where
  typed (name : String) (type : VarType) : String := s!"{name}: {type.machineName}"
  actionRow (d : PrimitiveDef) : List String :=
    let params := d.params.map fun p =>
      if p.output then "out " ++ typed p.name p.type else typed p.name p.type
    let repeatable := if d.repeatableFirst then ["repeatable"] else []
    let deprecated := (d.deprecated.map fun hint => s!"deprecated: {hint}").toList
    [d.id, ", ".intercalate params, "; ".intercalate (repeatable ++ deprecated)]
  eventRow (e : EventDef) : List String :=
    [s!"event {e.name}", ", ".intercalate (e.params.map fun p => typed p.name p.type), e.method]

def writeArtifacts (fs : FileSystem m) (directory : String) (report : BatchReport) :
    Job m Unit := do
  ask (fs.createDirectories directory) (.cannotCreate directory)
  report.programs.entries.forM fun (key, program) => do
    let target := Path.join directory (key ++ ".json")
    ask (fs.writeFile target program.toJson.pretty) (.cannotWrite target)
    if program.isSuccess then
      let target := Path.join directory (key ++ ".sasm")
      ask (fs.writeFile target program.assembly) (.cannotWrite target)

def printResult (dump : Option Stage) (report : BatchReport) : Job m Unit :=
  match dump with
  | some .assembly => report.programs.entries.forM fun (key, program) => do
      print key
      print program.assembly
  | some .json => print report.toJson.pretty
  | none => print (summaryTable report).render

/-- Compiles programs; the answer says whether all of them have succeeded. -/
def build (fs : FileSystem m) (available : Nat) (o : BuildOptions) : Job m Bool := do
  let settings ← loadSettings fs o
  let catalogue ← loadCatalogue fs o.manifests
  let paths ← expandInputs fs o.inputs
  let sources ← paths.mapM fun path => readJson fs path path ProgramSource.ofJson?
  let report := compileBatch sources settings catalogue available
  report.programs.values.forM fun program =>
    (program.warnings ++ program.errors).forM fun d => printMessage s!"{d.report} [{program.key}]"
  if let some directory := o.output then writeArtifacts fs directory report
  printResult o.dump report
  let failed := report.failed.length
  if 0 < failed then
    printMessage s!"{failed} program(s) failed"
    return false
  else
    printMessage s!"{report.programs.size} program(s) compiled"
    return true

/-- Runs what a command line asks for; the answer says whether it has succeeded. -/
def run (fs : FileSystem m) (available : Nat) : Invocation → Job m Bool
  | .build o => build fs available o
  | .actions manifests => do
      print (catalogueTable (← loadCatalogue fs manifests)).render
      return true
  | .help topic => do
      print topic.text
      return true
  | .version => do
      print versionText
      return true
  | .nothing => throw .noSubcommand

/-- The outcome of a run: whether it has succeeded or why it stopped, and what has been printed. -/
def transcript (fs : FileSystem m) (available : Nat) (invocation : Invocation) :
    m (Except CommandError Bool × Transcript) :=
  ((run fs available invocation).run).run {}

def exitCode : Except CommandError Bool → UInt32
  | .ok true => 0
  | .ok false => 1
  | .error _ => 2

end TriggerCompiler.Command
