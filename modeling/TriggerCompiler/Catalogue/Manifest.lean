import TriggerCompiler.Text.Blank
import TriggerCompiler.Value

/-! Manifests: documents that describe primitive actions and the events that the machine raises. -/

namespace TriggerCompiler

inductive BlockKind where
  | cond
  | elseCond
  | otherwise
  | whileLoop
  | forLoop
  | plain
deriving DecidableEq, Inhabited

/-- What a primitive action does. -/
inductive PrimitiveOp where
  /-- Pushes the operands and calls a function of the machine. -/
  | invoke (signature : String)
  /-- Copies the first operand to the second. -/
  | assign
  | openBlock (kind : BlockKind)
  | closeBlock
  | exitLoop
  | nextIteration
deriving DecidableEq

structure ParamSpec where
  name : String
  type : VarType
  output : Bool := false
  default : Option Value := none
deriving DecidableEq

structure PrimitiveDef where
  id : String
  op : PrimitiveOp
  params : List ParamSpec := []
  /-- Whether the first parameter takes a list of values, one call for each. -/
  repeatableFirst : Bool := false
  /-- What to use instead, if the action should no longer be used. -/
  deprecated : Option String := none
deriving DecidableEq

/-- A parameter of an event that the machine raises, and the variable that the machine writes it to. -/
structure EventParamSpec where
  name : String
  type : VarType
  storage : String
deriving DecidableEq

/-- An event that the machine raises. -/
structure EventDef where
  name : String
  /-- The method that the machine calls. -/
  method : String
  params : List EventParamSpec := []
deriving DecidableEq

structure Manifest where
  name : String
  version : String := ""
  description : String := ""
  actions : List PrimitiveDef := []
  events : List EventDef := []
deriving DecidableEq

inductive ManifestError where
  | emptyName
  | duplicateAction (id : String)
  | repeatableWithoutParams (id : String)
  | duplicateEvent (name : String)
  | eventMethodName (name : String)
  | actionRegistered (manifest id : String)
  | eventRegistered (manifest name : String)
deriving DecidableEq

namespace ManifestError

def message : ManifestError → String
  | emptyName => "manifest name is empty"
  | duplicateAction id => s!"duplicate action id '{id}'"
  | repeatableWithoutParams id => s!"action '{id}' is repeatable but has no parameters"
  | duplicateEvent name => s!"duplicate event name '{name}'"
  | eventMethodName name => s!"event '{name}' method must start with '_'"
  | actionRegistered manifest id => s!"manifest '{manifest}': action '{id}' already registered"
  | eventRegistered manifest name => s!"manifest '{manifest}': event '{name}' already registered"

end ManifestError

namespace BlockKind

def isLoop : BlockKind → Bool
  | whileLoop => true
  | forLoop => true
  | _ => false

/-- Whether the block continues the conditional before it. -/
def followsConditional : BlockKind → Bool
  | elseCond => true
  | otherwise => true
  | _ => false

/-- The name of the block in documents. -/
def name : BlockKind → String
  | cond => "if"
  | elseCond => "else_if"
  | otherwise => "else"
  | whileLoop => "while"
  | forLoop => "for"
  | plain => "block"

private def ofBlockName? : String → Option BlockKind
  | "if" => some cond
  | "else_if" => some elseCond
  | "else" => some otherwise
  | "while" => some whileLoop
  | "for" => some forLoop
  | "block" => some plain
  | _ => none

def toJson (k : BlockKind) : Json := .str k.name

def ofJson? (j : Json) : Option BlockKind := j.name?.bind ofBlockName?

end BlockKind

namespace PrimitiveOp

def toJson : PrimitiveOp → Json
  | invoke signature => .obj [("kind", .str "extern"), ("signature", .str signature)]
  | assign => .obj [("kind", .str "assign")]
  | openBlock kind => .obj [("kind", .str "scope"), ("scope", kind.toJson)]
  | closeBlock => .obj [("kind", .str "end")]
  | exitLoop => .obj [("kind", .str "break")]
  | nextIteration => .obj [("kind", .str "continue")]

def ofJson? (j : Json) : Option PrimitiveOp := do
  let tag : Members ← j.members? ["kind"]
  match ← tag.required "kind" Json.string? with
  | "extern" => do
      let m : Members ← j.members? ["kind", "signature"]
      return invoke (← m.required "signature" Json.string?)
  | "assign" => some assign
  | "scope" => do
      let m : Members ← j.members? ["kind", "scope"]
      return openBlock (← m.required "scope" BlockKind.ofJson?)
  | "end" => some closeBlock
  | "break" => some exitLoop
  | "continue" => some nextIteration
  | _ => none

end PrimitiveOp

namespace ParamSpec

/-- The value of a slot that is left at its default. -/
def defaultValue (p : ParamSpec) : Value := p.default.getD p.type.defaultValue

def toJson (p : ParamSpec) : Json := .obj [
  ("name", .str p.name),
  ("type", p.type.toJson),
  ("output", .bool p.output),
  ("default", .ofOption Value.toJson p.default)]

def ofJson? (j : Json) : Option ParamSpec := do
  let m : Members ← j.members? ["name", "type", "output", "default"]
  return {
    name := ← m.required "name" Json.string?
    type := ← m.required "type" VarType.ofJson?
    output := ← m.optional "output" Json.bool? false
    default := ← m.nullable "default" Value.ofJson? }

end ParamSpec

namespace PrimitiveDef

def toJson (d : PrimitiveDef) : Json := .obj [
  ("id", .str d.id),
  ("op", d.op.toJson),
  ("params", .arr (d.params.map ParamSpec.toJson)),
  ("repeatable_first", .bool d.repeatableFirst),
  ("deprecated", .ofOption .str d.deprecated)]

def ofJson? (j : Json) : Option PrimitiveDef := do
  let m : Members ← j.members? ["id", "op", "params", "repeatable_first", "deprecated"]
  return {
    id := ← m.required "id" Json.string?
    op := ← m.required "op" PrimitiveOp.ofJson?
    params := ← m.optional "params" (Json.list? ParamSpec.ofJson?) []
    repeatableFirst := ← m.optional "repeatable_first" Json.bool? false
    deprecated := ← m.nullable "deprecated" Json.string? }

end PrimitiveDef

namespace EventParamSpec

def toJson (p : EventParamSpec) : Json := .obj [
  ("name", .str p.name),
  ("type", p.type.toJson),
  ("variable", .str p.storage)]

def ofJson? (j : Json) : Option EventParamSpec := do
  let m : Members ← j.members? ["name", "type", "variable"]
  return {
    name := ← m.required "name" Json.string?
    type := ← m.required "type" VarType.ofJson?
    storage := ← m.required "variable" Json.string? }

end EventParamSpec

namespace EventDef

def toJson (e : EventDef) : Json := .obj [
  ("name", .str e.name),
  ("method", .str e.method),
  ("params", .arr (e.params.map EventParamSpec.toJson))]

def ofJson? (j : Json) : Option EventDef := do
  let m : Members ← j.members? ["name", "method", "params"]
  return {
    name := ← m.required "name" Json.string?
    method := ← m.required "method" Json.string?
    params := ← m.optional "params" (Json.list? EventParamSpec.ofJson?) [] }

end EventDef

namespace Manifest

def toJson (m : Manifest) : Json := .obj [
  ("name", .str m.name),
  ("version", .str m.version),
  ("description", .str m.description),
  ("actions", .arr (m.actions.map PrimitiveDef.toJson)),
  ("events", .arr (m.events.map EventDef.toJson))]

def ofJson? (j : Json) : Option Manifest := do
  let m : Members ← j.members? ["name", "version", "description", "actions", "events"]
  return {
    name := ← m.required "name" Json.string?
    version := ← m.optional "version" Json.string? ""
    description := ← m.optional "description" Json.string? ""
    actions := ← m.optional "actions" (Json.list? PrimitiveDef.ofJson?) []
    events := ← m.optional "events" (Json.list? EventDef.ofJson?) [] }

private def checkActions (seen : List String) : List PrimitiveDef → Except ManifestError Unit
  | [] => .ok ()
  | a :: rest =>
      if a.id ∈ seen then .error (.duplicateAction a.id)
      else if a.repeatableFirst ∧ a.params = [] then .error (.repeatableWithoutParams a.id)
      else checkActions (a.id :: seen) rest

private def checkEvents (seen : List String) : List EventDef → Except ManifestError Unit
  | [] => .ok ()
  | e :: rest =>
      if e.name ∈ seen then .error (.duplicateEvent e.name)
      else if e.method.toList.head? ≠ some '_' then .error (.eventMethodName e.name)
      else checkEvents (e.name :: seen) rest

/-- Checks a manifest by itself: it has a name, its actions and its events have distinct names, a
repeatable action has a parameter, and the method of an event starts with an underscore. -/
def validate (m : Manifest) : Except ManifestError Unit := do
  if Text.allBlank m.name then throw .emptyName
  checkActions [] m.actions
  checkEvents [] m.events

end Manifest

end TriggerCompiler
