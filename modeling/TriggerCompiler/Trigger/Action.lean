import TriggerCompiler.Value

/-! Actions as they stand in an event: what is called and what its slots are filled with. -/

namespace TriggerCompiler

inductive VarRef where
  | guid (guid : Guid)
  /-- The object that owns the program. -/
  | this
deriving DecidableEq

inductive InputSlot where
  /-- The default of the parameter. -/
  | default
  | constant (value : Value)
  | reference (target : VarRef)
  /-- A new local variable that receives the output. -/
  | declare (guid : Guid) (name : String)
deriving DecidableEq, Inhabited

inductive ActionRef where
  | primitive (id : String)
  | moduleEntry (key entry : String) (instance? : Option Guid)
deriving DecidableEq

structure ActionInstance where
  action : ActionRef
  inputs : List InputSlot := []
  /-- The values of a repeatable first parameter, one call for each. -/
  multiInputs : List InputSlot := []
deriving DecidableEq

namespace VarRef

def toJson : VarRef → Json
  | guid g => .obj [("guid", g.toJson)]
  | this => .str "this"

def ofJson? : Json → Option VarRef
  | .obj [("guid", j)] => (Guid.ofJson? j).map guid
  | j => if j.name? = some "this" then some this else none

end VarRef

namespace InputSlot

def toJson : InputSlot → Json
  | default => .obj [("kind", .str "default")]
  | constant value => .obj [("kind", .str "constant"), ("value", value.toJson)]
  | reference target => .obj [("kind", .str "variable"), ("reference", target.toJson)]
  | declare guid name =>
      .obj [("kind", .str "declare"), ("guid", guid.toJson), ("name", .str name)]

def ofJson? (j : Json) : Option InputSlot := do
  let tag : Members ← j.members? ["kind"]
  match ← tag.required "kind" Json.string? with
  | "default" => some default
  | "constant" => do
      let m : Members ← j.members? ["kind", "value"]
      return constant (← m.required "value" Value.ofJson?)
  | "variable" => do
      let m : Members ← j.members? ["kind", "reference"]
      return reference (← m.required "reference" VarRef.ofJson?)
  | "declare" => do
      let m : Members ← j.members? ["kind", "guid", "name"]
      return declare (← m.required "guid" Guid.ofJson?) (← m.required "name" Json.string?)
  | _ => none

end InputSlot

namespace ActionRef

def toJson : ActionRef → Json
  | primitive id => .obj [("kind", .str "primitive"), ("id", .str id)]
  | moduleEntry key entry instance? => .obj [
      ("kind", .str "module"),
      ("module", .str key),
      ("entry", .str entry),
      ("instance", .ofOption Guid.toJson instance?)]

def ofJson? (j : Json) : Option ActionRef := do
  let tag : Members ← j.members? ["kind"]
  match ← tag.required "kind" Json.string? with
  | "primitive" => do
      let m : Members ← j.members? ["kind", "id"]
      return primitive (← m.required "id" Json.string?)
  | "module" => do
      let m : Members ← j.members? ["kind", "module", "entry", "instance"]
      return moduleEntry (← m.required "module" Json.string?) (← m.required "entry" Json.string?)
        (← m.nullable "instance" Guid.ofJson?)
  | _ => none

/-- The instance that a call of a module names. -/
def moduleInstance? : ActionRef → Option Guid
  | primitive _ => none
  | moduleEntry _ _ instance? => instance?

end ActionRef

namespace ActionInstance

def primitive (id : String) (inputs : List InputSlot) : ActionInstance :=
  { action := .primitive id, inputs }

def ofModule (key entry : String) (inputs : List InputSlot) : ActionInstance :=
  { action := .moduleEntry key entry none, inputs }

/-- The same call on an instance of the module; a primitive action has no instances. -/
def withInstance (a : ActionInstance) (guid : Guid) : ActionInstance :=
  match a.action with
  | .primitive _ => a
  | .moduleEntry key entry _ => { a with action := .moduleEntry key entry (some guid) }

def toJson (a : ActionInstance) : Json := .obj [
  ("action", a.action.toJson),
  ("inputs", .arr (a.inputs.map InputSlot.toJson)),
  ("multi_inputs", .arr (a.multiInputs.map InputSlot.toJson))]

def ofJson? (j : Json) : Option ActionInstance := do
  let m : Members ← j.members? ["action", "inputs", "multi_inputs"]
  return {
    action := ← m.required "action" ActionRef.ofJson?
    inputs := ← m.optional "inputs" (Json.list? InputSlot.ofJson?) []
    multiInputs := ← m.optional "multi_inputs" (Json.list? InputSlot.ofJson?) [] }

end ActionInstance

end TriggerCompiler
