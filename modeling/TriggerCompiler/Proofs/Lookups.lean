import TriggerCompiler.Proofs.ActionCalls

/-! The looks at the slots of a program. The slots of an action are filled from left to right, call by
call; every look at a slot is recorded with the state in which it takes place. -/

namespace TriggerCompiler

/-- A look at a slot: the event and the action that the slot belongs to, the parameter that it is matched
with, and the state in which it is filled. -/
structure Lookup where
  event : Nat
  action : Nat
  spec : ParamSpec
  slot : InputSlot
  state : Emission

/-- The variable that a look at a slot declares. -/
def Lookup.declared? (l : Lookup) : Option VarId :=
  match l.slot with
  | .declare _ name =>
      if l.spec.output then some (l.state.program.symbols.declareLocal name l.spec.type).1 else none
  | _ => none

/-- The variable that an identifier in a slot stands for. -/
def Lookup.resolved? (l : Lookup) : Option VarId :=
  match l.slot with
  | .reference (.guid guid) => l.state.program.symbols.idOfGuid? guid
  | _ => none

/-- What is known about the emission of one event: the variables of its parameters, the looks at the
slots of its actions in their order, and the state behind it. -/
structure EventRun where
  params : List VarId
  lookups : List Lookup
  final : Emission

namespace Emit

/-- The looks at the slots of a call from a position on. -/
def lookupsFrom (location : Location) (slots : SlotSource) :
    Nat → List ParamSpec → Emission → List Lookup
  | _, [], _ => []
  | i, spec :: rest, e =>
      { event := location.event, action := location.action?.getD 0, spec, slot := (slots.slot i).2
        state := e } ::
        lookupsFrom location slots (i + 1) rest (fillSlot location slots i spec e).2

/-- The looks at the slots of calls. -/
def Call.lookups (c : Call) (location : Location) : List SlotSource → Emission → List Lookup
  | [], _ => []
  | slots :: rest, e =>
      lookupsFrom location slots 0 c.params (reportExtra location c.params slots e).2 ++
        c.lookups location rest (c.once location slots e).2

/-- The looks at the slots of an action. -/
def actionLookups (ctx : Context) (method : String) (location : Location) (action : ActionInstance)
    (e : Emission) : List Lookup :=
  match (prepare ctx method location action).run e with
  | (.ok (some c), e') => c.lookups location c.sources e'
  | _ => []

/-- The looks at the slots of actions from a position of an event on. -/
def bodyLookups (ctx : Context) (method : String) (event : Nat) :
    Nat → List ActionInstance → Emission → List Lookup
  | _, [], _ => []
  | j, action :: rest, e =>
      actionLookups ctx method (.ofAction event j) action e ++
        bodyLookups ctx method event (j + 1) rest
          ((emitAction ctx method (.ofAction event j) action).run e).2

/-- The emission of an event from a state on. -/
def eventRun (ctx : Context) (index : Nat) (event : EventDecl) (e : Emission) : EventRun :=
  let (opened, e') := openEvent ctx index event e
  { params := bodyParams opened
    lookups := bodyLookups ctx (bodyMethod index event opened) index 0 event.actions
      { e' with blocks := .ofParameters (bodyParams opened) }
    final := ((emitEvent ctx index event).run e).2 }

/-- The emission of events from a position of a program on. -/
def eventRuns (ctx : Context) : Nat → List EventDecl → Emission → List EventRun
  | _, [], _ => []
  | i, event :: rest, e =>
      eventRun ctx i event e :: eventRuns ctx (i + 1) rest (eventRun ctx i event e).final

end Emit

namespace Context

/-- The state in which the variables of the author have been declared. -/
def declared (ctx : Context) : Emission :=
  ((ctx.source.data.vars.forM (Emit.declareVariable ctx.source.data.sync) : Emit Unit)
    (.start ctx.source)).2

/-- The emission of the events of a program, one after the other. -/
def runs (ctx : Context) : List EventRun := Emit.eventRuns ctx 0 ctx.source.data.events ctx.declared

/-- The variable of a parameter of an event. -/
def parameter? (ctx : Context) (event k : Nat) : Option VarId :=
  ctx.runs[event]?.bind fun run => run.params[k]?

/-- All looks at slots while a program is emitted, in their order. -/
def lookups (ctx : Context) : List Lookup := ctx.runs.flatMap EventRun.lookups

end Context

end TriggerCompiler
