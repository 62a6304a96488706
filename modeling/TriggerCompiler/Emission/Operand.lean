import TriggerCompiler.Emission.State

/-! The operands of an action: each slot of the action is matched with the parameter at its position and
yields a variable, or a problem. -/

namespace TriggerCompiler

structure Operand where
  id : VarId
  /-- Whether the variable is a temporary that is given back behind the action. -/
  leased : Bool := false
  /-- Whether the action writes the variable. -/
  written : Bool := false
deriving DecidableEq

/-- The variables of one call. -/
structure Operands where
  values : List VarId
  /-- The variables that the call writes. -/
  outputs : List VarId
  /-- The temporaries that are given back behind the call. -/
  temps : List VarId
deriving DecidableEq

namespace Operands

def ofList (operands : List Operand) : Operands where
  values := operands.map Operand.id
  outputs := (operands.filter Operand.written).map Operand.id
  temps := (operands.filter Operand.leased).map Operand.id

end Operands

namespace Emit

def leaseOperand (type : VarType) (written : Bool) : Emit (Option Operand) := do
  let id ← onSymbols (·.acquireTemp type)
  return some { id, leased := true, written }

/-- The variable of one slot. The place is that of a constant in the slot. -/
def resolveSlot (location : Location) (position : LiteralPosition) (spec : ParamSpec) :
    InputSlot → Emit (Option Operand)
  | .default => do
      if spec.output then leaseOperand spec.type true
      else
        let id ← onSymbols (·.constant spec.type spec.defaultValue)
        return some { id }
  | .constant value => do
      if spec.output then
        report (.constantOutput spec.name) location
        return none
      else
        let id ← literal position spec.type value
        return some { id }
  | .reference .this => do
      if spec.output then
        report (.thisOutput spec.name) location
        return none
      else
        let id ← onSymbols (·.system .this)
        return some { id }
  | .reference (.guid guid) => do
      match (← get).program.symbols.idOfGuid? guid with
      | some id => return some { id, written := spec.output }
      | none =>
          report (.unknownVariable spec.name guid) location
          leaseOperand spec.type false
  | .declare guid name => do
      if spec.output then
        let id ← onSymbols (·.declareLocal name spec.type)
        modifySymbols (·.bindGuid guid id)
        modifyBlocks (·.own id)
        return some { id, written := true }
      else
        report (.declaringInput spec.name) location
        return none

/-- The slots of one call: those of the action, of which a repeated action replaces the first. -/
structure SlotSource where
  inputs : List InputSlot
  /-- The number and the value of the repetition. -/
  first? : Option (Nat × InputSlot)

/-- The slot at a position, and the number of the repetition it belongs to. -/
def SlotSource.slot (s : SlotSource) (i : Nat) : Option Nat × InputSlot :=
  match i, s.first? with
  | 0, some (m, input) => (some m, input)
  | i, _ => (none, s.inputs.getD i .default)

/-- The variables of the slots from a position on, one for each parameter. -/
def resolveFrom (location : Location) (slots : SlotSource) :
    Nat → List ParamSpec → Emit (List (Option Operand))
  | _, [] => return []
  | i, spec :: rest => do
      let (multi, input) := slots.slot i
      let position := { event := location.event, action := location.action?.getD 0, multi, slot := i }
      let operand ← resolveSlot location position spec input
      let tail ← resolveFrom location slots (i + 1) rest
      return operand :: tail

def release (temps : List VarId) : Emit Unit :=
  modifySymbols fun t => temps.foldl SymbolTable.releaseTemp t

/-- The variables of a call, if every slot has one. -/
def resolveOperands (location : Location) (params : List ParamSpec) (slots : SlotSource) :
    Emit (Option Operands) := do
  if params.length < slots.inputs.length then
    report (.extraInputs (slots.inputs.length - params.length)) location
  let results ← resolveFrom location slots 0 params
  let operands := Operands.ofList (results.filterMap id)
  if results.all Option.isSome then return some operands
  else
    release operands.temps
    return none

/-- The calls of an action: one for each value of a repeatable first parameter, or a single one. -/
def repetitions (action : ActionInstance) (repeatable : Bool) : List SlotSource :=
  if repeatable && !action.multiInputs.isEmpty then
    action.multiInputs.zipIdx.map fun e => ⟨action.inputs, some (e.2, e.1)⟩
  else [⟨action.inputs, none⟩]

end Emit

end TriggerCompiler
