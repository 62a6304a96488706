import TriggerCompiler.Arithmetic

/-! The command line. An option with a value takes it from the same word, behind an equals sign or, in
the short form, directly, or else from the next word. Options and inputs may stand in any order; behind
a double hyphen everything is an input. -/

namespace TriggerCompiler.Command

inductive Stage where
  | assembly
  | json
deriving DecidableEq

structure BuildOptions where
  inputs : List String := []
  output : Option String := none
  settings : Option String := none
  manifests : Option String := none
  threads : Option Nat := none
  noAutoSerialization : Bool := false
  noEventHooks : Bool := false
  dump : Option Stage := none
deriving DecidableEq

inductive Topic where
  | program
  | build
  | actions
  | help
deriving DecidableEq

inductive Invocation where
  | build (options : BuildOptions)
  /-- A list of the actions and events. -/
  | actions (manifests : Option String)
  | help (topic : Topic)
  | version
  /-- No subcommand was given. -/
  | nothing
deriving DecidableEq

inductive UsageError where
  | unexpectedArgument (text : String)
  | unknownSubcommand (name : String)
  | missingValue (option : String)
  | unexpectedValue (option : String)
  | invalidValue (option value : String)
  | repeated (option : String)
  | missingInputs
deriving DecidableEq

def UsageError.message : UsageError → String
  | unexpectedArgument text => s!"unexpected argument '{text}' found"
  | unknownSubcommand name => s!"unrecognized subcommand '{name}'"
  | missingValue option => s!"a value is required for '--{option}' but none was supplied"
  | unexpectedValue option => s!"unexpected value for '--{option}' found; no more were expected"
  | invalidValue option value => s!"invalid value '{value}' for '--{option}'"
  | repeated option => s!"the argument '--{option}' cannot be used multiple times"
  | missingInputs => "the following required arguments were not provided: <inputs>..."

/-- The options of all commands. -/
inductive Switch where
  | verbose
  | help
  | version
  | output
  | settings
  | manifests
  | threads
  | noAutoSerialization
  | noEventHooks
  | dump
deriving DecidableEq

namespace Switch

def long : Switch → String
  | verbose => "verbose"
  | help => "help"
  | version => "version"
  | output => "output"
  | settings => "settings"
  | manifests => "manifests"
  | threads => "threads"
  | noAutoSerialization => "no-auto-serialization"
  | noEventHooks => "no-event-hooks"
  | dump => "dump"

def short? : Switch → Option Char
  | verbose => some 'v'
  | help => some 'h'
  | version => some 'V'
  | output => some 'o'
  | settings => some 's'
  | manifests => some 'm'
  | threads => some 'j'
  | noAutoSerialization => none
  | noEventHooks => none
  | dump => some 'd'

def takesValue : Switch → Bool
  | output | settings | manifests | threads | dump => true
  | _ => false

end Switch

inductive Word where
  | flag (s : Switch)
  | value (s : Switch) (text : String)
  | input (text : String)
  | mistake (e : UsageError)
deriving DecidableEq

def isOption (arg : String) : Bool := arg.startsWith "-" && arg ≠ "-"

/-- An option whose value is the next argument. -/
def awaiting (s : Switch) : Option String → List Word × Bool
  | some text => if isOption text then ([.mistake (.missingValue s.long)], false)
      else ([.value s text], true)
  | none => ([.mistake (.missingValue s.long)], false)

/-- Reads short options that share an argument; the last one may need the next argument. -/
def shortWords (known : List Switch) (next : Option String) : List Char → List Word × Bool
  | [] => ([], false)
  | c :: rest =>
      match known.find? (·.short? = some c) with
      | none => ([.mistake (.unexpectedArgument s!"-{c}")], false)
      | some s =>
          if s.takesValue then
            match rest with
            | [] => awaiting s next
            | '=' :: text => ([.value s (String.ofList text)], false)
            | text => ([.value s (String.ofList text)], false)
          else
            let (words, taken) := shortWords known next rest
            (.flag s :: words, taken)

def longWords (known : List Switch) (next : Option String) (text : List Char) : List Word × Bool :=
  let name := String.ofList (text.takeWhile (· ≠ '='))
  let value := text.drop name.length
  match known.find? (·.long = name), value with
  | none, _ => ([.mistake (.unexpectedArgument s!"--{name}")], false)
  | some s, [] => if s.takesValue then awaiting s next else ([.flag s], false)
  | some s, _ :: value =>
      if s.takesValue then ([.value s (String.ofList value)], false)
      else ([.mistake (.unexpectedValue s.long)], false)

/-- Reads one argument; the flag says whether the next one has been used up as its value. -/
def wordsOf (known : List Switch) (arg : String) (next : Option String) : List Word × Bool :=
  match arg.toList with
  | '-' :: '-' :: name => longWords known next name
  | '-' :: c :: rest => shortWords known next (c :: rest)
  | _ => ([.input arg], false)

def words (known : List Switch) : List String → List Word
  | [] => []
  | "--" :: rest => rest.map .input
  | arg :: rest =>
      let (found, taken) := wordsOf known arg rest.head?
      found ++ if taken then words known rest.tail else words known rest
termination_by args => args.length
decreasing_by all_goals (simp only [List.length_cons, List.length_tail]; omega)

def threads? (text : String) : Option Nat :=
  let digits := match text.toList with
    | '+' :: rest => rest
    | all => all
  if digits.isEmpty || !digits.all Char.isDigit then none
  else
    let n := digits.foldl (fun n c => 10 * n + (c.toNat - 48)) 0
    if n < 2 ^ 64 then some n else none

def stage? : String → Option Stage
  | "asm" => some .assembly
  | "json" => some .json
  | _ => none

def path? (text : String) : Option String := if text.isEmpty then none else some text

/-- Fills in the value of an option that may be given once. -/
def setOnce {α : Type} (s : Switch) (old : Option α) (read : String → Option α) (text : String) :
    Except UsageError (Option α) :=
  match old, read text with
  | some _, _ => .error (.repeated s.long)
  | none, none => .error (.invalidValue s.long text)
  | none, some a => .ok (some a)

def raiseOnce (s : Switch) (old : Bool) : Except UsageError Bool :=
  if old then .error (.repeated s.long) else .ok true

def readBuild (o : BuildOptions) : List Word → Except UsageError Invocation
  | [] => if o.inputs.isEmpty then .error .missingInputs else .ok (.build o)
  | .mistake e :: _ => .error e
  | .flag .help :: _ => .ok (.help .build)
  | .input text :: rest => readBuild { o with inputs := o.inputs ++ [text] } rest
  | .flag .noAutoSerialization :: rest => do
      let flag ← raiseOnce .noAutoSerialization o.noAutoSerialization
      readBuild { o with noAutoSerialization := flag } rest
  | .flag .noEventHooks :: rest => do
      let flag ← raiseOnce .noEventHooks o.noEventHooks
      readBuild { o with noEventHooks := flag } rest
  | .flag _ :: rest => readBuild o rest
  | .value .output text :: rest => do
      readBuild { o with output := ← setOnce .output o.output path? text } rest
  | .value .settings text :: rest => do
      readBuild { o with settings := ← setOnce .settings o.settings path? text } rest
  | .value .manifests text :: rest => do
      readBuild { o with manifests := ← setOnce .manifests o.manifests path? text } rest
  | .value .threads text :: rest => do
      readBuild { o with threads := ← setOnce .threads o.threads threads? text } rest
  | .value .dump text :: rest => do
      readBuild { o with dump := ← setOnce .dump o.dump stage? text } rest
  | .value s _ :: _ => .error (.unexpectedValue s.long)

def readActions (manifests : Option String) : List Word → Except UsageError Invocation
  | [] => .ok (.actions manifests)
  | .mistake e :: _ => .error e
  | .flag .help :: _ => .ok (.help .actions)
  | .input text :: _ => .error (.unexpectedArgument text)
  | .flag _ :: rest => readActions manifests rest
  | .value .manifests text :: rest => do
      readActions (← setOnce .manifests manifests path? text) rest
  | .value s _ :: _ => .error (.unexpectedValue s.long)

/-- The options that stand before a subcommand. -/
structure Frame where
  /-- Whether the program tells about itself and its work. -/
  complete : Bool
deriving DecidableEq

def Frame.shared (f : Frame) : List Switch := if f.complete then [.help, .verbose] else [.help]

def Frame.leading (f : Frame) : List Switch :=
  if f.complete then [.help, .verbose, .version] else [.help]

def readSubcommand (f : Frame) (args : List String) : String → Except UsageError Invocation
  | "build" => readBuild {} (words (f.shared ++ [.output, .settings, .manifests, .threads,
      .noAutoSerialization, .noEventHooks, .dump]) args)
  | "actions" => readActions none (words (f.shared ++ [.manifests]) args)
  | "help" =>
      match args with
      | [] => .ok (.help .program)
      | ["build"] => .ok (.help .build)
      | ["actions"] => .ok (.help .actions)
      | ["help"] => .ok (.help .help)
      | "build" :: name :: _ => .error (.unknownSubcommand name)
      | "actions" :: name :: _ => .error (.unknownSubcommand name)
      | "help" :: name :: _ => .error (.unknownSubcommand name)
      | name :: _ => .error (.unknownSubcommand name)
  | name => .error (.unknownSubcommand name)

/-- What the flags before a subcommand ask for. -/
def readLeading : List Word → Option (Except UsageError Invocation)
  | [] => none
  | .flag .help :: _ => some (.ok (.help .program))
  | .flag .version :: _ => some (.ok .version)
  | .mistake e :: _ => some (.error e)
  | _ :: rest => readLeading rest

def parse (f : Frame) : List String → Except UsageError Invocation
  | [] => .ok .nothing
  | ["--"] => .ok .nothing
  | "--" :: text :: _ => .error (.unexpectedArgument text)
  | arg :: rest =>
      if isOption arg then
        match readLeading (wordsOf f.leading arg none).1 with
        | some result => result
        | none => parse f rest
      else readSubcommand f rest arg

end TriggerCompiler.Command
