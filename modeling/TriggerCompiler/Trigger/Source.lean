import TriggerCompiler.Trigger.Event

/-! Programs as an author hands them in, and the interface that a program published as a module offers
to its callers. -/

namespace TriggerCompiler

/-- A parameter of a module's entry and the module variable that carries it. -/
structure EntryParam where
  name : String
  type : VarType
  output : Bool := false
  /-- The name of the variable in the module's program. -/
  carrier : String
deriving DecidableEq

/-- A method of a module that its callers may use. -/
structure ModuleEntry where
  id : String
  /-- The method of the module's program. -/
  method : String
  params : List EntryParam := []
  /-- Whether the first parameter takes a list of values, one call for each. -/
  repeatableFirst : Bool := false
deriving DecidableEq

/-- What a module offers to its callers. -/
structure ModuleInterface where
  entries : List ModuleEntry := []
  /-- Whether each instance of the module has its own variables. -/
  multiInstance : Bool := false
  dependencies : List String := []
deriving DecidableEq, Inhabited

structure TriggerData where
  vars : List VariableDecl := []
  events : List EventDecl := []
  sync : SyncMethod := .manual
deriving DecidableEq, Inhabited

/-- A program to compile, with its interface if it is published as a module. -/
structure ProgramSource where
  key : String
  data : TriggerData
  interface? : Option ModuleInterface := none
deriving DecidableEq

/-- The name of the variable that stores a parameter of a custom event. -/
def customParamVariable (event param : String) : String := event ++ "__" ++ param

namespace EntryParam

def toJson (p : EntryParam) : Json := .obj [
  ("name", .str p.name),
  ("type", p.type.toJson),
  ("output", .bool p.output),
  ("variable", .str p.carrier)]

def ofJson? (j : Json) : Option EntryParam := do
  let m : Members ← j.members? ["name", "type", "output", "variable"]
  return {
    name := ← m.required "name" Json.string?
    type := ← m.required "type" VarType.ofJson?
    output := ← m.optional "output" Json.bool? false
    carrier := ← m.required "variable" Json.string? }

end EntryParam

namespace ModuleEntry

/-- The entry that calls a custom event of the module. -/
def ofCustomEvent (id event : String) (params : List ParamDecl) : ModuleEntry where
  id := id
  method := event
  params := params.map fun p =>
    { name := p.name, type := p.type, output := p.output
      carrier := customParamVariable event p.name }

def toJson (e : ModuleEntry) : Json := .obj [
  ("id", .str e.id),
  ("method", .str e.method),
  ("params", .arr (e.params.map EntryParam.toJson)),
  ("repeatable_first", .bool e.repeatableFirst)]

def ofJson? (j : Json) : Option ModuleEntry := do
  let m : Members ← j.members? ["id", "method", "params", "repeatable_first"]
  return {
    id := ← m.required "id" Json.string?
    method := ← m.required "method" Json.string?
    params := ← m.optional "params" (Json.list? EntryParam.ofJson?) []
    repeatableFirst := ← m.optional "repeatable_first" Json.bool? false }

end ModuleEntry

namespace ModuleInterface

def toJson (i : ModuleInterface) : Json := .obj [
  ("entries", .arr (i.entries.map ModuleEntry.toJson)),
  ("multi_instance", .bool i.multiInstance),
  ("dependencies", .ofStrings i.dependencies)]

def ofJson? (j : Json) : Option ModuleInterface := do
  let m : Members ← j.members? ["entries", "multi_instance", "dependencies"]
  return {
    entries := ← m.optional "entries" (Json.list? ModuleEntry.ofJson?) []
    multiInstance := ← m.optional "multi_instance" Json.bool? false
    dependencies := ← m.optional "dependencies" (Json.list? Json.string?) [] }

end ModuleInterface

namespace TriggerData

def toJson (d : TriggerData) : Json := .obj [
  ("variables", .arr (d.vars.map VariableDecl.toJson)),
  ("events", .arr (d.events.map EventDecl.toJson)),
  ("sync", d.sync.toJson)]

def ofJson? (j : Json) : Option TriggerData := do
  let m : Members ← j.members? ["variables", "events", "sync"]
  return {
    vars := ← m.optional "variables" (Json.list? VariableDecl.ofJson?) []
    events := ← m.optional "events" (Json.list? EventDecl.ofJson?) []
    sync := ← m.optional "sync" SyncMethod.ofJson? .manual }

/-- The actions of all events, in order. -/
def allActions (d : TriggerData) : List ActionInstance := d.events.flatMap EventDecl.actions

end TriggerData

namespace ProgramSource

/-- The keys of the modules that the actions of the program call. -/
def calledModules (s : ProgramSource) : List String :=
  s.data.allActions.filterMap fun a =>
    match a.action with
    | .primitive _ => none
    | .moduleEntry key _ _ => some key

/-- The keys of the modules that must be compiled before the program, in ascending order: those its
interface lists and those its actions call, the program itself apart. -/
def dependencies (s : ProgramSource) : List String :=
  let listed := (s.interface?.map ModuleInterface.dependencies).getD []
  let all := (listed ++ s.calledModules).filter (· ≠ s.key)
  all.eraseDups.mergeSort (· ≤ ·)

def toJson (s : ProgramSource) : Json := .obj [
  ("key", .str s.key),
  ("data", s.data.toJson),
  ("module", .ofOption ModuleInterface.toJson s.interface?)]

def ofJson? (j : Json) : Option ProgramSource := do
  let m : Members ← j.members? ["key", "data", "module"]
  return {
    key := ← m.required "key" Json.string?
    data := ← m.required "data" TriggerData.ofJson?
    interface? := ← m.nullable "module" ModuleInterface.ofJson? }

end ProgramSource

end TriggerCompiler
