import TriggerCompiler.Emission.Event
import TriggerCompiler.Finishing
import TriggerCompiler.Machine.Bytecode

/-! The compilation of a single program: its code is emitted, kept aside for callers if the program is a
module, finished and encoded. A structural failure stops at once; after a problem with the meaning of the
program everything is still emitted, but nothing is finished. -/

namespace TriggerCompiler

/-- Everything that a compilation yields for one program. -/
structure CompiledProgram where
  key : String
  assembly : String := ""
  executable : Option Executable := none
  heapDefaults : List HeapEntry := []
  references : List Reference := []
  chains : List EventChain := []
  exportedMethods : List String := []
  exportedVariables : List String := []
  synced : List String := []
  requiresNetwork : Bool := false
  warnings : List Diagnostic := []
  errors : List Diagnostic := []
  /-- The finished program; it is no part of the written artifact. -/
  finished : Option Program := none
deriving DecidableEq

/-- A compiled program and, for a module, what callers are linked with. -/
structure CompileOutcome where
  compiled : CompiledProgram
  linkable : Option Linkable

namespace CompiledProgram

/-- The artifact of a failed compilation: messages only. -/
def failed (key : String) (messages : List Diagnostic) : CompiledProgram :=
  { key, warnings := Diagnostic.warningsOf messages, errors := Diagnostic.errorsOf messages }

def isSuccess (c : CompiledProgram) : Bool := c.errors.isEmpty

def toJson (c : CompiledProgram) : Json := .obj [
  ("key", .str c.key),
  ("assembly", .str c.assembly),
  ("executable", .ofOption Executable.toJson c.executable),
  ("heap_defaults", .arr (c.heapDefaults.map HeapEntry.toJson)),
  ("references", .arr (c.references.map Reference.toJson)),
  ("chains", .arr (c.chains.map EventChain.toJson)),
  ("exported_methods", .ofStrings c.exportedMethods),
  ("exported_variables", .ofStrings c.exportedVariables),
  ("synced", .ofStrings c.synced),
  ("requires_network", .bool c.requiresNetwork),
  ("warnings", .arr (c.warnings.map Diagnostic.toJson)),
  ("errors", .arr (c.errors.map Diagnostic.toJson))]

def ofJson? (j : Json) : Option CompiledProgram := do
  let m : Members ← j.members?
    ["key", "assembly", "executable", "heap_defaults", "references", "chains", "exported_methods",
      "exported_variables", "synced", "requires_network", "warnings", "errors"]
  return {
    key := ← m.required "key" Json.string?
    assembly := ← m.required "assembly" Json.string?
    executable := ← m.nullable "executable" Executable.ofJson?
    heapDefaults := ← m.required "heap_defaults" (Json.list? HeapEntry.ofJson?)
    references := ← m.required "references" (Json.list? Reference.ofJson?)
    chains := ← m.required "chains" (Json.list? EventChain.ofJson?)
    exportedMethods := ← m.required "exported_methods" (Json.list? Json.string?)
    exportedVariables := ← m.required "exported_variables" (Json.list? Json.string?)
    synced := ← m.required "synced" (Json.list? Json.string?)
    requiresNetwork := ← m.required "requires_network" Json.bool?
    warnings := ← m.required "warnings" (Json.list? Diagnostic.ofJson?)
    errors := ← m.required "errors" (Json.list? Diagnostic.ofJson?) }

end CompiledProgram

namespace Context

def issuer : String := "sigil.compile"

def messages (e : Emission) : List Diagnostic := e.findings.map (·.toDiagnostic issuer)

/-- The outcome of a compilation that a failure ended. -/
def failedOutcome (ctx : Context) (e : Emission) (failure : Option Failure) : CompileOutcome :=
  let fatal := failure.toList.map (·.toDiagnostic issuer)
  { compiled := .failed ctx.source.key (messages e ++ fatal), linkable := none }

/-- What callers of a module are linked with. -/
def linkable? (ctx : Context) (e : Emission) : Option Linkable :=
  ctx.source.interface?.map fun interface =>
    { key := ctx.source.key, interface, program := e.program
      nested := e.linker.nestedModules ctx.modules }

def artifact (ctx : Context) (e : Emission) (report : FinishReport) (program : Program) :
    CompiledProgram :=
  let image := Image.ofProgram program
  let encoded := image.assemble (UInt32.ofNat image.heapSize)
  let rejected := match encoded with
    | .ok _ => []
    | .error cause =>
        [{ level := .error, message := (Failure.assembler cause).message, issuer : Diagnostic }]
  let all := messages e ++ rejected
  { key := ctx.source.key
    assembly := image.render
    executable := encoded.toOption
    heapDefaults := image.heap
    references := e.references
    chains := e.chains
    exportedMethods := (image.methods.filter Method.exported).map Method.name
    exportedVariables := (image.heap.filter HeapEntry.exported).map HeapEntry.name
    synced := (image.heap.filter (·.sync.isSynced)).map HeapEntry.name
    requiresNetwork := report.requiresNetwork
    warnings := Diagnostic.warningsOf all
    errors := Diagnostic.errorsOf all
    finished := some program }

/-- Finishes and encodes a program whose code has been emitted without errors. -/
def complete (ctx : Context) (e : Emission) : CompileOutcome :=
  match (Program.finish ctx.source.data.sync ctx.settings).run e.program with
  | (.error failure, _) => ctx.failedOutcome e failure
  | (.ok report, program) =>
      let compiled := ctx.artifact e report program
      { compiled, linkable := if compiled.isSuccess then ctx.linkable? e else none }

def compile (ctx : Context) : CompileOutcome :=
  match (Emit.emitProgram ctx).run (Emission.start ctx.source) with
  | (.error failure, e) => ctx.failedOutcome e failure
  | (.ok (), e) => if e.hasErrors then ctx.failedOutcome e none else ctx.complete e

end Context

def compileProgram (source : ProgramSource) (catalogue : Catalogue) (modules : ModuleCache)
    (settings : Settings) : CompileOutcome :=
  Context.compile { source, catalogue, modules, settings }

/-- Compiles programs one after the other. A module that is compiled without errors can be called by the
programs behind it. -/
def compileInOrder (catalogue : Catalogue) (settings : Settings) (modules : ModuleCache) :
    List ProgramSource → List CompileOutcome × ModuleCache
  | [] => ([], modules)
  | source :: rest =>
      let outcome := compileProgram source catalogue modules settings
      let modules := match outcome.linkable with
        | some m => modules.publish m
        | none => modules
      let (outcomes, modules) := compileInOrder catalogue settings modules rest
      (outcome :: outcomes, modules)

end TriggerCompiler
