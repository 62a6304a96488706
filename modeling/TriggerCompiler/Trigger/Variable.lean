import TriggerCompiler.Trigger.Sync
import TriggerCompiler.Value

/-! Variables and event parameters as an author declares them. -/

namespace TriggerCompiler

structure VariableDecl where
  guid : Guid
  name : String
  type : VarType
  /-- The initial value; the default of the type if absent. -/
  default : Option Value := none
  sync : SyncMode := .notSynced
  exported : Bool := false
  /-- Whether the change events of the variable run after a write that changes it. -/
  onChange : Bool := false
deriving DecidableEq

structure ParamDecl where
  guid : Guid
  name : String
  type : VarType
  output : Bool := false
deriving DecidableEq

namespace VariableDecl

def initialValue (v : VariableDecl) : Value := v.default.getD v.type.defaultValue

def toJson (v : VariableDecl) : Json := .obj [
  ("guid", v.guid.toJson),
  ("name", .str v.name),
  ("type", v.type.toJson),
  ("default", .ofOption Value.toJson v.default),
  ("sync", v.sync.toJson),
  ("exported", .bool v.exported),
  ("on_change", .bool v.onChange)]

def ofJson? (j : Json) : Option VariableDecl := do
  let m : Members ←
    j.members? ["guid", "name", "type", "default", "sync", "exported", "on_change"]
  return {
    guid := ← m.required "guid" Guid.ofJson?
    name := ← m.required "name" Json.string?
    type := ← m.required "type" VarType.ofJson?
    default := ← m.nullable "default" Value.ofJson?
    sync := ← m.optional "sync" SyncMode.ofJson? .notSynced
    exported := ← m.optional "exported" Json.bool? false
    onChange := ← m.optional "on_change" Json.bool? false }

end VariableDecl

namespace ParamDecl

def toJson (p : ParamDecl) : Json := .obj [
  ("guid", p.guid.toJson),
  ("name", .str p.name),
  ("type", p.type.toJson),
  ("output", .bool p.output)]

def ofJson? (j : Json) : Option ParamDecl := do
  let m : Members ← j.members? ["guid", "name", "type", "output"]
  return {
    guid := ← m.required "guid" Guid.ofJson?
    name := ← m.required "name" Json.string?
    type := ← m.required "type" VarType.ofJson?
    output := ← m.optional "output" Json.bool? false }

end ParamDecl

end TriggerCompiler
