import TriggerCompiler.Command.Arguments

/-! The help texts. -/

namespace TriggerCompiler.Command

def versionText : String := "sigil 0.1.0"

/-- A list of names with explanations, the explanations below each other. -/
def explained (rows : List (String × String)) : List String :=
  let width := (rows.map fun r => r.1.length).foldl max 0
  rows.map fun r => "  " ++ r.1 ++ String.ofList (List.replicate (width - r.1.length + 2) ' ') ++ r.2

def Switch.form (s : Switch) (ending : String) : String :=
  match s.short? with
  | some c => s!"-{c}, --{s.long}{ending}"
  | none => s!"    --{s.long}{ending}"

def Switch.row : Switch → String × String
  | .verbose => (form .verbose "...", "Log compile phases (RUST_LOG overrides)")
  | .help => (form .help "", "Print help")
  | .version => (form .version "", "Print version")
  | .output => (form .output " <DIR>", "Directory for compiled artifacts")
  | .settings => (form .settings " <FILE>", "Compile settings file (JSON)")
  | .manifests => (form .manifests " <DIR>", "Directory of extra action manifests")
  | .threads => (form .threads " <N>", "Worker threads for the batch")
  | .noAutoSerialization =>
      (form .noAutoSerialization "", "Do not append serialization requests after synced writes")
  | .noEventHooks =>
      (form .noEventHooks "", "Namespace module event methods instead of merging them")
  | .dump => (form .dump " <STAGE>", "Print a stage to stdout [possible values: asm, json]")

def Topic.about : Topic → String
  | .program => "Compiles trigger programs into VM assembly"
  | .build => "Compile trigger programs (JSON files or glob patterns)"
  | .actions => "List the actions and events available to programs"
  | .help => "Print this message or the help of the given subcommand(s)"

/-- The lines behind the description of a topic. -/
def Topic.details : Topic → List String
  | .program =>
      ["Usage: sigil [OPTIONS] [COMMAND]", "", "Commands:"] ++
        explained [("build", Topic.about .build), ("actions", Topic.about .actions),
          ("help", Topic.about .help)] ++
        ["", "Options:"] ++ explained ([Switch.verbose, .help, .version].map Switch.row)
  | .build =>
      ["Usage: sigil build [OPTIONS] <inputs>...", "", "Arguments:"] ++
        explained [("<inputs>...", "Program files or glob patterns")] ++
        ["", "Options:"] ++ explained ([Switch.output, .verbose, .settings, .manifests, .threads,
          .noAutoSerialization, .noEventHooks, .dump, .help].map Switch.row)
  | .actions =>
      ["Usage: sigil actions [OPTIONS]", "", "Options:"] ++
        explained ([Switch.manifests, .verbose, .help].map Switch.row)
  | .help =>
      ["Usage: sigil help [COMMAND]...", "", "Arguments:"] ++
        explained [("[COMMAND]...", "Print help for the subcommand(s)")]

def Topic.text (t : Topic) : String := "\n".intercalate (t.about :: "" :: t.details)

end TriggerCompiler.Command
