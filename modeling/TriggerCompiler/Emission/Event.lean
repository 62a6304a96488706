import TriggerCompiler.Emission.Action
import TriggerCompiler.Emission.Dispatch
import TriggerCompiler.Identifier

/-! The code of events and of whole programs. An event that cannot be built is compiled into a method
that is thrown away, so that the problems of its actions are reported as well. -/

namespace TriggerCompiler

/-- The method that is called after a watched variable changes. -/
def changeMethod (name : String) : String := "__onchange_" ++ name

namespace Emit

def isVariableName (name : String) : Bool := isLegalIdentifier name && !hasDoubleUnderscore name

def declareVariable (sync : SyncMethod) (d : VariableDecl) : Emit Unit := do
  if !isVariableName d.name then report (.illegalVariableName d.name) none
  else if d.sync.isSynced && !d.type.isSyncable then
    report (.unsyncableVariable d.name d.type) none
  else
    if d.sync.isSynced && sync = .none then report (.syncedWithoutSync d.name) none
    match (← get).program.symbols.declareUser d with
    | .error cause => report (.undeclarable cause) none
    | .ok (id, symbols) =>
        modifySymbols fun _ => symbols
        if d.onChange then
          modifySymbols (·.modifyVar id fun v => { v with onChange := some (changeMethod d.name) })

/-- The method that an event starts with. -/
structure EventBase where
  method : String
  /-- Whether the machine may call the method by name. -/
  exported : Bool
  /-- The variables of the parameters. -/
  params : List VarId

/-- Declares the storage of parameters and binds their identifiers to it. -/
def bindParams : List (Guid × (SymbolTable → VarId × SymbolTable)) → Emit (List VarId)
  | [] => return []
  | (guid, declare) :: rest => do
      let id ← onSymbols declare
      modifySymbols (·.bindGuid guid id)
      let tail ← bindParams rest
      return id :: tail

def builtinBase (ctx : Context) (location : Location) (name : String) (params : List ParamDecl) :
    Emit (Option EventBase) := do
  match ctx.catalogue.event? name with
  | none =>
      report (.unknownEvent name) location
      return none
  | some d =>
      if d.params.length < params.length then
        report (.tooManyEventParams name d.params.length params.length) location
        return none
      else
        let storage ← bindParams ((params.zip d.params).map fun (p, spec) =>
          (p.guid, (·.declareEventParam spec.storage spec.type)))
        return some ⟨d.method, true, storage⟩

def customBase (ctx : Context) (location : Location) (name : String) (params : List ParamDecl) :
    Emit (Option EventBase) := do
  if !isVariableName name || startsWithUnderscore name then
    report (.illegalEventName name) location
    return none
  else if !params.isEmpty && name ∈ (← get).seenParameterized then
    report (.repeatedParameterizedEvent name) location
    return none
  else
    if params.isEmpty then
      if ctx.source.data.events.any (isParameterized name) then
        report (.ambiguousEvent name) location
    else modify fun e => { e with seenParameterized := name :: e.seenParameterized }
    let storage ← bindParams (params.map fun p =>
      (p.guid, (·.declareInternal (customParamVariable name p.name) p.type p.type.defaultValue)))
    return some ⟨name, true, storage⟩
where
  /-- Whether an event is a custom one with a name and parameters. -/
  isParameterized (name : String) (e : EventDecl) : Bool :=
    match e.trigger with
    | .custom other params => other = name && !params.isEmpty
    | _ => false

def changedBase (location : Location) (guid : Guid) : Emit (Option EventBase) := do
  let symbols := (← get).program.symbols
  match (symbols.idOfGuid? guid).bind symbols.get? with
  | some v =>
      if v.onChange.isSome then return some ⟨changeMethod v.name, false, []⟩
      else
        report (.unwatchedVariable guid) location
        return none
  | none =>
      report (.unwatchedVariable guid) location
      return none

def resolveBase (ctx : Context) (location : Location) : EventTrigger → Emit (Option EventBase)
  | .builtin name params => builtinBase ctx location name params
  | .custom name params => customBase ctx location name params
  | .changed guid => changedBase location guid

/-- Checks that a delay in frames fits in a signed number. -/
def checkDelay (location : Location) : Delay → Emit Bool
  | .frames n => do
      if 2 ^ 31 ≤ n.toNat then
        report (.frameDelayOutOfRange n) location
        return false
      else return true
  | _ => return true

/-- The code of all actions of an event; every block must be closed at its end. -/
def emitBody (ctx : Context) (method : String) (event : Nat) (params : List VarId)
    (actions : List ActionInstance) : EmitStep Unit := do
  (modifyBlocks fun _ => .ofParameters params : Emit Unit)
  emitActions ctx method event 0 actions
  (flushPrevious method : Emit Unit)
  let e ← get
  let (result, blocks, symbols) := e.blocks.finish event e.program.symbols
  set { e with blocks, program := { e.program with symbols } }
  match result with
  | .ok () => return ()
  | .error failure => throw failure

/-- Compiles the actions of an event that cannot be built, for their problems only. -/
def checkActions (ctx : Context) (event : Nat) (actions : List ActionInstance) :
    EmitStep Unit := do
  let scratch := s!"ev{event}__unreachable"
  emitBody ctx scratch event [] actions
  (modifyMethods (·.remove scratch) : Emit Unit)

def isChained (o : EventOptions) : Bool :=
  o.gate ≠ .anyone || o.broadcast ≠ .here || o.delay ≠ .none

/-- The replay mode that takes effect: only a broadcast event is replayed. -/
def effectiveReplay (location : Location) (o : EventOptions) : Emit ReplayMode := do
  if o.replay ≠ .none && o.broadcast = .here then
    report .replayWithoutBroadcast location
    return .none
  else return o.replay

/-- Adds a method around the methods of a chain. The chain is given from its outermost method on. -/
def wrapWhen (condition : Bool) (kind : LinkKind) (build : String → Emit String)
    (inner : String) (links : List ChainLink) : Emit (String × List ChainLink) := do
  if condition then
    let method ← build inner
    return (method, { source := method, target := inner, kind } :: links)
  else return (inner, links)

def emitChain (event : Nat) (base body : String) (replay : ReplayMode) (o : EventOptions) :
    Emit EventChain := do
  let (inner, links) ← wrapWhen (replay ≠ .none) .replay (emitReplay event · replay) body []
  let (inner, links) ← wrapWhen (o.broadcast ≠ .here) .broadcast
    (emitBroadcast event · o.broadcast) inner links
  let (inner, links) ← wrapWhen (o.delay ≠ .none) .delay (emitDelay event · o.delay) inner links
  emitGate base inner o.gate
  return {
    event
    methods := base :: links.map ChainLink.source ++ [body]
    links := { source := base, target := inner, kind := .call } :: links }

def emitEvent (ctx : Context) (index : Nat) (event : EventDecl) : EmitStep Unit := do
  let location := Location.ofEvent index
  let base? ← (resolveBase ctx location event.trigger : Emit (Option EventBase))
  let delayFits ← (checkDelay location event.options.delay : Emit Bool)
  match base?.filter fun _ => delayFits with
  | none => checkActions ctx index event.actions
  | some base =>
      let replay ← (effectiveReplay location event.options : Emit ReplayMode)
      (modifyMethods (·.update base.method fun b =>
        { b with exported := b.exported || base.exported }) : Emit Unit)
      if isChained event.options then
        let body := s!"ev{index}__body"
        emitBody ctx body index base.params event.actions
        let chain ← (emitChain index base.method body replay event.options : Emit EventChain)
        modify fun e => { e with chains := e.chains ++ [chain] }
      else
        emitBody ctx base.method index base.params event.actions
        modify fun e => { e with
          chains := e.chains ++ [{ event := index, methods := [base.method], links := [] }] }

def emitEvents (ctx : Context) : Nat → List EventDecl → EmitStep Unit
  | _, [] => return ()
  | i, event :: rest => do
      emitEvent ctx i event
      emitEvents ctx (i + 1) rest

def emitProgram (ctx : Context) : EmitStep Unit := do
  (ctx.source.data.vars.forM (declareVariable ctx.source.data.sync) : Emit Unit)
  emitEvents ctx 0 ctx.source.data.events

end Emit

/-- The instances of modules that a program uses, in the order of first use. -/
def ProgramSource.instances (s : ProgramSource) : OrderedMap String (List Guid) :=
  s.data.allActions.foldl
    (fun all a =>
      match a.action with
      | .moduleEntry key _ (some guid) =>
          let known := (all.get? key).getD []
          all.insert key (if guid ∈ known then known else known ++ [guid])
      | _ => all)
    .empty

def Emission.start (s : ProgramSource) : Emission :=
  { linker := { instances := s.instances } }

end TriggerCompiler
