import TriggerCompiler.Json.Decode

/-! How variables and programs take part in network synchronisation. -/

namespace TriggerCompiler

inductive SyncMethod where
  | none
  | continuous
  | manual
deriving DecidableEq, Inhabited

inductive SyncMode where
  | notSynced
  | synced
  | syncedLinear
  | syncedSmooth
deriving DecidableEq, Inhabited

namespace SyncMethod

def toJson : SyncMethod → Json
  | none => .str "none"
  | continuous => .str "continuous"
  | manual => .str "manual"

private def ofMethodName? : String → Option SyncMethod
  | "none" => some none
  | "continuous" => some continuous
  | "manual" => some manual
  | _ => Option.none

def ofJson? (j : Json) : Option SyncMethod := j.name?.bind ofMethodName?

end SyncMethod

namespace SyncMode

/-- Whether a variable in this mode is replicated at all. -/
def isSynced (mode : SyncMode) : Bool := mode ≠ notSynced

/-- The interpolation keyword of the assembly directive. -/
def directive : SyncMode → String
  | notSynced => "none"
  | synced => "none"
  | syncedLinear => "linear"
  | syncedSmooth => "smooth"

def toJson : SyncMode → Json
  | notSynced => .str "not_synced"
  | synced => .str "synced"
  | syncedLinear => .str "synced_linear"
  | syncedSmooth => .str "synced_smooth"

private def ofModeName? : String → Option SyncMode
  | "not_synced" => some notSynced
  | "synced" => some synced
  | "synced_linear" => some syncedLinear
  | "synced_smooth" => some syncedSmooth
  | _ => none

def ofJson? (j : Json) : Option SyncMode := j.name?.bind ofModeName?

end SyncMode

end TriggerCompiler
