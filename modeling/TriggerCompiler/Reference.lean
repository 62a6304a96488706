import TriggerCompiler.Trigger.Source

/-! References: where the constants of a program stand in its source, so that they can be replaced for
each object that runs the program. -/

namespace TriggerCompiler

/-- The place of a constant: an event, an action, a slot, and for a repeated action which repetition. -/
structure LiteralPosition where
  event : Nat
  action : Nat
  multi : Option Nat
  slot : Nat
deriving DecidableEq

/-- A constant of the source, its place and its heap variable. -/
structure Reference where
  position : LiteralPosition
  symbol : String
  type : VarType
deriving DecidableEq

namespace LiteralPosition

def symbol (p : LiteralPosition) : String :=
  match p.multi with
  | some m => s!"__refconst_e{p.event}_a{p.action}_m{m}_v{p.slot}"
  | none => s!"__refconst_e{p.event}_a{p.action}_v{p.slot}"

def resolve? (p : LiteralPosition) (d : TriggerData) : Option Value := do
  let event ← d.events[p.event]?
  let action ← event.actions[p.action]?
  let slot ← match p.multi with
    | some m => action.multiInputs[m]?
    | none => action.inputs[p.slot]?
  match slot with
  | .constant value => some value
  | _ => none

end LiteralPosition

namespace Reference

def resolve? (r : Reference) (d : TriggerData) : Option Value := r.position.resolve? d

/-- The reference as JSON; an absent repetition is left out. -/
def toJson (r : Reference) : Json :=
  .obj ([
    ("event_index", .nat r.position.event),
    ("action_index", .nat r.position.action)] ++
    (match r.position.multi with
     | some m => [("multi_index", .nat m)]
     | none => []) ++ [
    ("variable_index", .nat r.position.slot),
    ("symbol", .str r.symbol),
    ("type", r.type.toJson)])

def ofJson? (j : Json) : Option Reference := do
  let m : Members ← j.members?
    ["event_index", "action_index", "multi_index", "variable_index", "symbol", "type"]
  return {
    position := {
      event := ← m.required "event_index" Json.index?
      action := ← m.required "action_index" Json.index?
      multi := ← m.nullable "multi_index" Json.index?
      slot := ← m.required "variable_index" Json.index? }
    symbol := ← m.required "symbol" Json.string?
    type := ← m.required "type" VarType.ofJson? }

end Reference

end TriggerCompiler
