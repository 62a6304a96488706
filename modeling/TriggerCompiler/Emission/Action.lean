import TriggerCompiler.Emission.Operand

/-! The code of single actions. A problem with the meaning of an action is reported and the action is
left out; a block that ends without having been opened, and a module that cannot be merged, end the
compilation. -/

namespace TriggerCompiler

namespace Emit

/-- Places the end of a conditional that no further branch continues. -/
def flushPrevious (method : String) : Emit Unit := do
  let previous := (← get).blocks.previous
  modifyBlocks fun s => { s with previous := none }
  if let some exit := previous.bind ClosedBlock.pendingExit then
    emit method [.label exit]

def emitInvocation (method : String) (location : Location) (d : PrimitiveDef) (signature : String)
    (action : ActionInstance) : Emit Unit := do
  unless d.repeatableFirst || action.multiInputs.isEmpty do
    report (.actionDoesNotRepeat d.id) location
  (repetitions action d.repeatableFirst).forM fun slots => do
    if let some operands ← resolveOperands location d.params slots then
      operands.values.forM (pushVar method)
      emit method [.invoke signature]
      operands.outputs.forM (afterWrite method)
      release operands.temps

def emitAssign (method : String) (location : Location) (d : PrimitiveDef)
    (action : ActionInstance) : Emit Unit := do
  if let some operands ← resolveOperands location d.params ⟨action.inputs, none⟩ then
    if let [source, target] := operands.values then
      pushVar method source
      pushVar method target
      emit method [.copy]
      afterWrite method target
    release operands.temps

def emitBreak (method : String) (location : Location) : Emit Unit := do
  match (← get).blocks.innermostLoop?.bind BlockFrame.exitLabel with
  | some label => emit method [.jumpTo label]
  | none => report .breakOutsideLoop location

def emitContinue (method : String) (location : Location) : Emit Unit := do
  match (← get).blocks.innermostLoop?.bind BlockFrame.continueLabel with
  | some label => emit method [.jumpTo label]
  | none => report .continueOutsideLoop location

/-- The end of the conditional that a further branch continues. If there is none, the end of the block
before is placed. -/
def takePendingExit (method : String) : Emit (Option String) := do
  let previous := (← get).blocks.previous
  modifyBlocks fun s => { s with previous := none }
  match previous with
  | some { kind := .cond, pendingExit := some exit, .. } => return some exit
  | some { kind := .elseCond, pendingExit := some exit, .. } => return some exit
  | some { pendingExit := some exit, .. } =>
      emit method [.label exit]
      return none
  | _ => return none

def labelFrame (frame : BlockFrame) (pending : Option String) : BlockKind → Emit BlockFrame
  | .cond => do
      let next ← newLabel "next"
      let exit ← newLabel "endif"
      return { frame with nextLabel := some next, exitLabel := some exit }
  | .elseCond => do
      let next ← newLabel "next"
      return { frame with nextLabel := some next, exitLabel := pending }
  | .otherwise => return { frame with exitLabel := pending }
  | .whileLoop => do
      let start ← newLabel "while"
      let exit ← newLabel "wend"
      return { frame with
        startLabel := some start, continueLabel := some start, exitLabel := some exit }
  | .forLoop => do
      let start ← newLabel "for"
      let next ← newLabel "fnext"
      let exit ← newLabel "fend"
      return { frame with
        startLabel := some start, continueLabel := some next, exitLabel := some exit }
  | .plain => return frame

/-- The variables of a loop header, with a variable of the block in place of a temporary index: the
index outlives the header. -/
def loopValues (action : ActionInstance) (values : List VarId) : Emit (List VarId) := do
  if action.inputs.getD 3 .default = .default then
    let id ← onSymbols (·.declareLocal "index" .int)
    modifyBlocks (·.own id)
    return values.set 3 id
  else return values

def emitForHead (method head exit : String) (start final step index : VarId) : Emit Unit := do
  let flag ← onSymbols (·.acquireTemp .bool)
  pushVar method start
  pushVar method index
  emit method [.copy, .label head]
  pushVar method index
  pushVar method final
  pushVar method flag
  emit method [.invoke Signature.intLess]
  pushVar method flag
  emit method [.jumpToIfFalse exit]
  modifySymbols (·.releaseTemp flag)
  let loop := { index := ← nameOf index, step := ← nameOf step }
  modifyBlocks (·.modifyTop fun frame => { frame with forLoop := some loop })

def emitHead (method : String) (frame : BlockFrame) (values : List VarId) :
    BlockKind → Emit Unit
  | .cond | .elseCond => do
      if let (some condition, some next) := (values.head?, frame.nextLabel) then
        pushVar method condition
        emit method [.jumpToIfFalse next]
  | .whileLoop => do
      if let (some condition, some start, some exit) :=
          (values.head?, frame.startLabel, frame.exitLabel) then
        emit method [.label start]
        pushVar method condition
        emit method [.jumpToIfFalse exit]
  | .forLoop => do
      if let ([start, final, step, index], some head, some exit) :=
          (values, frame.startLabel, frame.exitLabel) then
        emitForHead method head exit start final step index
  | .otherwise | .plain => return ()

def enterBlock (method : String) (location : Location) (d : PrimitiveDef) (kind : BlockKind)
    (action : ActionInstance) (pending : Option String) : Emit Unit := do
  let frame ← labelFrame (.ofBlock kind location) pending kind
  modifyBlocks (·.push frame)
  if let some operands ← resolveOperands location d.params ⟨action.inputs, none⟩ then
    let values ← if kind = .forLoop then loopValues action operands.values
      else pure operands.values
    emitHead method frame values kind
    release operands.temps

/-- Opens a block. A branch that continues no conditional is reported and becomes a plain block, so
that its end still closes something. -/
def openBlock (method : String) (location : Location) (d : PrimitiveDef) (kind : BlockKind)
    (action : ActionInstance) : Emit Unit := do
  if kind.followsConditional then
    match ← takePendingExit method with
    | some exit => enterBlock method location d kind action (some exit)
    | none =>
        report (.mustFollowConditional d.id) location
        modifyBlocks (·.push (.ofBlock .plain location))
  else enterBlock method location d kind action none

/-- The code at the end of a block, and the end of a conditional that is still to be placed. -/
def emitTail (method : String) (frame : BlockFrame) : BlockKind → Emit (Option String)
  | .cond | .elseCond => do
      if let (some next, some exit) := (frame.nextLabel, frame.exitLabel) then
        emit method [.jumpTo exit, .label next]
        return some exit
      else return none
  | .otherwise => do
      if let some exit := frame.exitLabel then
        emit method [.label exit]
      return none
  | .whileLoop => do
      if let (some start, some exit) := (frame.startLabel, frame.exitLabel) then
        emit method [.jumpTo start, .label exit]
      return none
  | .forLoop => do
      if let (some head, some next, some exit, some loop) :=
          (frame.startLabel, frame.continueLabel, frame.exitLabel, frame.forLoop) then
        emit method [
          .label next, .push loop.index, .push loop.step, .push loop.index,
          .invoke Signature.intAdd, .jumpTo head, .label exit]
      return none
  | .plain => return none

def closeBlock (method : String) (location : Location) : EmitStep Unit := do
  let e ← get
  match e.blocks.pop location e.program.symbols with
  | .error failure => throw failure
  | .ok (frame, blocks, symbols) =>
      set { e with blocks, program := { e.program with symbols } }
      if let .block kind := frame.kind then
        let pendingExit ← (emitTail method frame kind : Emit (Option String))
        (modifyBlocks fun s => { s with
          previous := some { kind, closedAt := location, pendingExit } } : Emit Unit)

def onLinkage {α : Type} (step : Attempt Linkage α) : EmitStep α := ExceptT.mk fun e =>
  let (result, s) := step.run { program := e.program, linker := e.linker }
  (result, { e with program := s.program, linker := s.linker })

def entryParams (entry : ModuleEntry) : List ParamSpec :=
  entry.params.map fun p => { name := p.name, type := p.type, output := p.output }

def copyInputs (method : String) (t : Renaming) : List (EntryParam × VarId) → Emit Unit
  | [] => return ()
  | (param, id) :: rest => do
      unless param.output do
        if let some slot := t.symbols.get? param.carrier then
          pushVar method id
          emit method [.push slot, .copy]
      copyInputs method t rest

def copyOutputs (method : String) (t : Renaming) : List (EntryParam × VarId) → Emit Unit
  | [] => return ()
  | (param, id) :: rest => do
      if param.output then
        if let some slot := t.symbols.get? param.carrier then
          emit method [.push slot]
          pushVar method id
          emit method [.copy]
          afterWrite method id
      copyOutputs method t rest

/-- Calls the method of a module's entry once. -/
def emitEntryCall (method : String) (location : Location) (t : Renaming) (entry : ModuleEntry)
    (entryMethod : String) (copies : Option InstanceCopies) (slots : SlotSource) : Emit Unit := do
  if let some operands ← resolveOperands location (entryParams entry) slots then
    let carried := entry.params.zip operands.values
    copyInputs method t carried
    if let some c := copies then call method c.copyIn
    call method entryMethod
    if let some c := copies then call method c.copyOut
    copyOutputs method t carried
    release operands.temps

/-- Calls an entry of a module that has been merged. -/
def emitEntryCalls (method : String) (location : Location) (callee : Linkable) (t : Renaming)
    (entry : ModuleEntry) (action : ActionInstance) (copies : Option InstanceCopies) :
    Emit Unit := do
  unless entry.repeatableFirst || action.multiInputs.isEmpty do
    report (.entryDoesNotRepeat entry.id callee.key) location
  if let some entryMethod := t.methods.get? entry.method then
    (repetitions action entry.repeatableFirst).forM
      (emitEntryCall method location t entry entryMethod copies)

/-- Calls an entry of a module, which is merged before its first call. -/
def emitModuleCall (ctx : Context) (method : String) (location : Location) (callee : Linkable)
    (entry : ModuleEntry) (action : ActionInstance) : EmitStep Unit := do
  let t ← onLinkage (Linker.merge ctx.settings.includeEventHooks callee)
  if callee.interface.multiInstance then
    match action.action.moduleInstance? with
    | some guid =>
        (emitEntryCalls method location callee t entry action (t.instance? guid) : Emit Unit)
    | none => (report (.instanceRequired callee.key) location : Emit Unit)
  else (emitEntryCalls method location callee t entry action none : Emit Unit)

def emitPrimitive (method : String) (location : Location) (d : PrimitiveDef)
    (action : ActionInstance) : EmitStep Unit := do
  if let some hint := d.deprecated then
    (report (.deprecatedAction d.id hint) location : Emit Unit)
  match d.op with
  | .openBlock kind => (openBlock method location d kind action : Emit Unit)
  | .closeBlock => closeBlock method location
  | .exitLoop => (emitBreak method location : Emit Unit)
  | .nextIteration => (emitContinue method location : Emit Unit)
  | .assign => (emitAssign method location d action : Emit Unit)
  | .invoke signature => (emitInvocation method location d signature action : Emit Unit)

def emitAction (ctx : Context) (method : String) (location : Location) (action : ActionInstance) :
    EmitStep Unit := do
  let resolved := ctx.catalogue.resolve ctx.modules action.action
  unless resolved.followsConditional do (flushPrevious method : Emit Unit)
  match resolved with
  | .invalid reason => (report (.unresolvedAction reason) location : Emit Unit)
  | .primitive d => emitPrimitive method location d action
  | .moduleEntry callee entry => emitModuleCall ctx method location callee entry action

def emitActions (ctx : Context) (method : String) (event : Nat) :
    Nat → List ActionInstance → EmitStep Unit
  | _, [] => return ()
  | i, action :: rest => do
      emitAction ctx method (.ofAction event i) action
      emitActions ctx method event (i + 1) rest

end Emit

end TriggerCompiler
