import TriggerCompiler.Json.Decode

/-! Messages about a program: how severe they are, who issues them and which event or action they are
about. -/

namespace TriggerCompiler

/-- A place in a program: an event, or one of its actions. -/
structure Location where
  event : Nat
  action? : Option Nat := none
deriving DecidableEq

namespace Location

def ofEvent (event : Nat) : Location := { event }

def ofAction (event action : Nat) : Location := { event, action? := some action }

def text (l : Location) : String :=
  match l.action? with
  | some action => s!"event {l.event} action {action}"
  | none => s!"event {l.event}"

/-- The place as JSON; an absent action is left out. -/
def toJson (l : Location) : Json :=
  .obj (("event", .nat l.event) ::
    (match l.action? with
     | some action => [("action", .nat action)]
     | none => []))

def ofJson? (j : Json) : Option Location := do
  let m : Members ← j.members? ["event", "action"]
  return {
    event := ← m.required "event" Json.index?
    action? := ← m.nullable "action" Json.index? }

end Location

inductive Level where
  | info
  | warning
  | error
  | critical
deriving DecidableEq

namespace Level

def isError : Level → Bool
  | error => true
  | critical => true
  | _ => false

def text : Level → String
  | info => "INFO"
  | warning => "WARNING"
  | error => "ERROR"
  | critical => "CRITICAL"

def toJson : Level → Json
  | info => .str "info"
  | warning => .str "warning"
  | error => .str "error"
  | critical => .str "critical"

private def ofLevelName? : String → Option Level
  | "info" => some info
  | "warning" => some warning
  | "error" => some error
  | "critical" => some critical
  | _ => none

def ofJson? (j : Json) : Option Level := j.name?.bind ofLevelName?

end Level

structure Diagnostic where
  level : Level
  message : String
  issuer : String
  location? : Option Location := none
deriving DecidableEq

namespace Diagnostic

def isError (d : Diagnostic) : Bool := d.level.isError

def place (d : Diagnostic) : String :=
  match d.location? with
  | some l => l.text
  | none => "program"

def report (d : Diagnostic) : String :=
  s!"SIGIL | {d.level.text} | {d.place} | {d.message}"

def text (d : Diagnostic) : String :=
  s!"SIGIL | {d.level.text} | {d.place} | {d.issuer} | {d.message}"

/-- The message as JSON; an absent place is left out. -/
def toJson (d : Diagnostic) : Json :=
  .obj ([
    ("level", d.level.toJson),
    ("message", .str d.message),
    ("issuer", .str d.issuer)] ++
    (match d.location? with
     | some l => [("location", l.toJson)]
     | none => []))

def ofJson? (j : Json) : Option Diagnostic := do
  let m : Members ← j.members? ["level", "message", "issuer", "location"]
  return {
    level := ← m.required "level" Level.ofJson?
    message := ← m.required "message" Json.string?
    issuer := ← m.required "issuer" Json.string?
    location? := ← m.nullable "location" Location.ofJson? }

def warningsOf (ds : List Diagnostic) : List Diagnostic := ds.filter fun d => !d.isError

def errorsOf (ds : List Diagnostic) : List Diagnostic := ds.filter isError

end Diagnostic

end TriggerCompiler
