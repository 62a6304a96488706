import TriggerCompiler.Trigger.Action
import TriggerCompiler.Trigger.Variable

/-! Events: what raises them, how they are dispatched and the actions they run. -/

namespace TriggerCompiler

/-- What raises an event. -/
inductive EventTrigger where
  /-- The machine. -/
  | builtin (name : String) (params : List ParamDecl)
  /-- A call by name, from the program or from the callers of a module. -/
  | custom (name : String) (params : List ParamDecl)
  /-- A write that changes a watched variable. -/
  | changed (watched : Guid)
deriving DecidableEq

/-- To whom an event is sent. -/
inductive Broadcast where
  | here
  | all
  | owner
deriving DecidableEq, Inhabited

/-- What a late joiner runs of a broadcast event. -/
inductive ReplayMode where
  | none
  /-- Every missed occurrence. -/
  | all
  /-- One occurrence if an odd number was missed. -/
  | parity
deriving DecidableEq, Inhabited

/-- How long an event waits before it runs. -/
inductive Delay where
  | none
  | seconds (amount : Single)
  | frames (amount : UInt32)
deriving DecidableEq, Inhabited

/-- Who may run an event. -/
inductive Gate where
  | anyone
  | owner
  | master
deriving DecidableEq, Inhabited

/-- How an event is dispatched. -/
structure EventOptions where
  broadcast : Broadcast := .here
  replay : ReplayMode := .none
  delay : Delay := .none
  gate : Gate := .anyone
deriving DecidableEq, Inhabited

structure EventDecl where
  trigger : EventTrigger
  options : EventOptions := {}
  actions : List ActionInstance := []
deriving DecidableEq

namespace EventTrigger

def params : EventTrigger → List ParamDecl
  | builtin _ params => params
  | custom _ params => params
  | changed _ => []

/-- The trigger with other parameters; a change has none. -/
def withParams (t : EventTrigger) (params : List ParamDecl) : EventTrigger :=
  match t with
  | builtin name _ => builtin name params
  | custom name _ => custom name params
  | changed watched => changed watched

private def named (kind name : String) (params : List ParamDecl) : Json := .obj [
  ("kind", .str kind),
  ("name", .str name),
  ("params", .arr (params.map ParamDecl.toJson))]

def toJson : EventTrigger → Json
  | builtin name params => named "builtin" name params
  | custom name params => named "custom" name params
  | changed watched => .obj [("kind", .str "changed"), ("variable", watched.toJson)]

private def namedOfJson? (j : Json) : Option (String × List ParamDecl) := do
  let m : Members ← j.members? ["kind", "name", "params"]
  return (← m.required "name" Json.string?, ← m.optional "params" (Json.list? ParamDecl.ofJson?) [])

def ofJson? (j : Json) : Option EventTrigger := do
  let tag : Members ← j.members? ["kind"]
  match ← tag.required "kind" Json.string? with
  | "builtin" => do
      let (name, params) ← namedOfJson? j
      return builtin name params
  | "custom" => do
      let (name, params) ← namedOfJson? j
      return custom name params
  | "changed" => do
      let m : Members ← j.members? ["kind", "variable"]
      return changed (← m.required "variable" Guid.ofJson?)
  | _ => none

end EventTrigger

namespace Broadcast

def toJson : Broadcast → Json
  | here => .str "local"
  | all => .str "all"
  | owner => .str "owner"

private def ofTargetName? : String → Option Broadcast
  | "local" => some here
  | "all" => some all
  | "owner" => some owner
  | _ => none

def ofJson? (j : Json) : Option Broadcast := j.name?.bind ofTargetName?

end Broadcast

namespace ReplayMode

def toJson : ReplayMode → Json
  | none => .str "none"
  | all => .str "all"
  | parity => .str "parity"

private def ofReplayName? : String → Option ReplayMode
  | "none" => some none
  | "all" => some all
  | "parity" => some parity
  | _ => Option.none

def ofJson? (j : Json) : Option ReplayMode := j.name?.bind ofReplayName?

end ReplayMode

namespace Delay

def toJson : Delay → Json
  | none => .obj [("kind", .str "none")]
  | seconds amount => .obj [("kind", .str "seconds"), ("amount", .ofSingle amount)]
  | frames amount => .obj [("kind", .str "frames"), ("amount", .nat amount.toNat)]

def ofJson? (j : Json) : Option Delay := do
  let m : Members ← j.members? ["kind", "amount"]
  match ← m.required "kind" Json.string? with
  | "none" => if (← m.nullable "amount" some).isNone then some none else Option.none
  | "seconds" => return seconds (← m.required "amount" Json.single?)
  | "frames" => return frames (← m.required "amount" Json.uint32?)
  | _ => Option.none

end Delay

namespace Gate

def toJson : Gate → Json
  | anyone => .str "anyone"
  | owner => .str "owner"
  | master => .str "master"

private def ofGateName? : String → Option Gate
  | "anyone" => some anyone
  | "owner" => some owner
  | "master" => some master
  | _ => none

def ofJson? (j : Json) : Option Gate := j.name?.bind ofGateName?

end Gate

namespace EventOptions

def toJson (o : EventOptions) : Json := .obj [
  ("broadcast", o.broadcast.toJson),
  ("replay", o.replay.toJson),
  ("delay", o.delay.toJson),
  ("gate", o.gate.toJson)]

def ofJson? (j : Json) : Option EventOptions := do
  let m : Members ← j.members? ["broadcast", "replay", "delay", "gate"]
  return {
    broadcast := ← m.optional "broadcast" Broadcast.ofJson? .here
    replay := ← m.optional "replay" ReplayMode.ofJson? .none
    delay := ← m.optional "delay" Delay.ofJson? .none
    gate := ← m.optional "gate" Gate.ofJson? .anyone }

end EventOptions

namespace EventDecl

def params (e : EventDecl) : List ParamDecl := e.trigger.params

def withParams (e : EventDecl) (params : List ParamDecl) : EventDecl :=
  { e with trigger := e.trigger.withParams params }

def toJson (e : EventDecl) : Json := .obj [
  ("trigger", e.trigger.toJson),
  ("options", e.options.toJson),
  ("actions", .arr (e.actions.map ActionInstance.toJson))]

def ofJson? (j : Json) : Option EventDecl := do
  let m : Members ← j.members? ["trigger", "options", "actions"]
  return {
    trigger := ← m.required "trigger" EventTrigger.ofJson?
    options := ← m.optional "options" EventOptions.ofJson? {}
    actions := ← m.optional "actions" (Json.list? ActionInstance.ofJson?) [] }

end EventDecl

end TriggerCompiler
