import TriggerCompiler.Json.Decode

/-! The switches of the compiler, shared by all programs of a batch. -/

namespace TriggerCompiler

/-- The switches of the compiler. -/
structure Settings where
  /-- Whether a method of a manually synced program that writes a synced variable ends with a request
  for serialization. -/
  autoRequestSerialization : Bool := true
  /-- Whether the methods of a module that the machine calls join those of its callers. -/
  includeEventHooks : Bool := true
  /-- How many programs may be compiled at the same time. -/
  threads : Option Nat := none
deriving DecidableEq, Inhabited

namespace Settings

def toJson (s : Settings) : Json := .obj [
  ("auto_request_serialization", .bool s.autoRequestSerialization),
  ("include_event_hooks", .bool s.includeEventHooks),
  ("threads", .ofOption .nat s.threads)]

def ofJson? (j : Json) : Option Settings := do
  let m : Members ← j.members? ["auto_request_serialization", "include_event_hooks", "threads"]
  return {
    autoRequestSerialization := ← m.optional "auto_request_serialization" Json.bool? true
    includeEventHooks := ← m.optional "include_event_hooks" Json.bool? true
    threads := ← m.nullable "threads" Json.index? }

end Settings

end TriggerCompiler
