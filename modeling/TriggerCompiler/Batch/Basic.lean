import TriggerCompiler.Batch.Order
import TriggerCompiler.Compile

/-! The compilation of a batch of programs. The programs of a level are compiled in groups; the modules
of a group can be called by the groups behind it. As a program calls only modules of earlier levels, the
size of the groups has no influence on the result. -/

namespace TriggerCompiler

/-- The compiled programs of a batch, by key. -/
structure BatchReport where
  programs : SortedMap CompiledProgram

namespace BatchReport

def failed (r : BatchReport) : List CompiledProgram := r.programs.values.filter fun p => !p.isSuccess

def toJson (r : BatchReport) : Json :=
  .obj [("programs", .obj (r.programs.entries.map fun e => (e.1, e.2.toJson)))]

end BatchReport

/-- The number of programs that are compiled at the same time; `available` counts if none is set. -/
def Settings.groupSize (s : Settings) (available : Nat) : Nat :=
  match s.threads with
  | some (n + 1) => n + 1
  | _ => max available 1

namespace Batch

def issuer : String := "sigil.batch"

/-- The programs of a batch by key; of two with one key the last counts. -/
def byKey (sources : List ProgramSource) : SortedMap ProgramSource :=
  .ofList (sources.map fun s => (s.key, s))

def graph (sources : SortedMap ProgramSource) : DependencyGraph :=
  .ofList (sources.entries.map fun e => (e.1, e.2.dependencies))

/-- The artifact of a program that is blocked by a cycle. -/
def blockedProgram (key : String) (cycle : List String) : CompiledProgram :=
  .failed key [(Failure.dependencyCycle cycle).toDiagnostic issuer]

/-- Cuts a list into groups of a positive size; the last one may be smaller. -/
def groups {α : Type} (size : Nat) (l : List α) : List (List α) :=
  if _h : l = [] ∨ size = 0 then (if l = [] then [] else [l])
  else l.take size :: groups size (l.drop size)
termination_by l.length
decreasing_by
  have hl : 0 < l.length := List.length_pos_iff.mpr fun h => _h (Or.inl h)
  have hs : size ≠ 0 := fun h => _h (Or.inr h)
  rw [List.length_drop]
  omega

def publishAll (modules : ModuleCache) (outcomes : List CompileOutcome) : ModuleCache :=
  outcomes.foldl
    (fun modules outcome =>
      match outcome.linkable with
      | some m => modules.publish m
      | none => modules)
    modules

/-- Compiles groups of programs one after the other. -/
def compileGroups (catalogue : Catalogue) (settings : Settings) (modules : ModuleCache) :
    List (List ProgramSource) → List CompileOutcome
  | [] => []
  | group :: rest =>
      let outcomes := group.map (compileProgram · catalogue modules settings)
      outcomes ++ compileGroups catalogue settings (publishAll modules outcomes) rest

end Batch

def compileBatch (sources : List ProgramSource) (settings : Settings) (catalogue : Catalogue)
    (available : Nat := 1) : BatchReport :=
  let programs := Batch.byKey sources
  let order := (Batch.graph programs).buildOrder
  let blocked := order.blocked.entries.map fun e => (e.1, Batch.blockedProgram e.1 e.2)
  let levels := order.levels.map fun level => level.filterMap programs.get?
  let outcomes := Batch.compileGroups catalogue settings .empty
    (levels.flatMap (Batch.groups (settings.groupSize available)))
  { programs := .ofList (blocked ++ outcomes.map fun o => (o.compiled.key, o.compiled)) }

end TriggerCompiler
