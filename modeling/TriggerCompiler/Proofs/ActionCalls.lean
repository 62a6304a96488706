import TriggerCompiler.Compile
import TriggerCompiler.Proofs.Basic

/-! The parts of actions and events. An action first does what has to be done once: it ends the block
before it, opens or closes a block, or merges a module. Then it makes its calls, and for each of them the
slots of the action are filled from left to right. An event is built around the code of its actions. -/

namespace TriggerCompiler

namespace Emit

theorem run_bind {α β : Type} (x : Emit α) (f : α → Emit β) (e : Emission) :
    (x >>= f) e = f (x e).1 (x e).2 := rfl

theorem run_get_bind {α : Type} (f : Emission → Emit α) (e : Emission) :
    (get >>= f : Emit α) e = f e e := rfl

theorem exists_of_bind {α β : Type} {e e' : Emission} {x : Emit α} {f : α → Emit β} {b : β}
    (h : (x >>= f) e = (b, e')) : ∃ a e₁, x e = (a, e₁) ∧ f a e₁ = (b, e') := ⟨_, _, rfl, h⟩

/-! ### Actions as calls -/

/-- The calls of an action: the parameters, the slots of each call, and the code of a call whose slots
have been filled. -/
structure Call where
  params : List ParamSpec
  sources : List SlotSource
  finish : Operands → Emit Unit

namespace Call

/-- Makes one call. -/
def once (c : Call) (location : Location) (slots : SlotSource) : Emit Unit := do
  if let some operands ← resolveOperands location c.params slots then c.finish operands

/-- Makes all calls. -/
def run (c : Call) (location : Location) : Emit Unit := c.sources.forM (c.once location)

/-- The calls of a function of the machine. -/
def ofInvocation (method signature : String) (d : PrimitiveDef) (action : ActionInstance) : Call where
  params := d.params
  sources := repetitions action d.repeatableFirst
  finish operands := do
    operands.values.forM (pushVar method)
    emit method [.invoke signature]
    operands.outputs.forM (afterWrite method)
    release operands.temps

/-- The call of an assignment. -/
def ofAssign (method : String) (d : PrimitiveDef) (action : ActionInstance) : Call where
  params := d.params
  sources := [⟨action.inputs, none⟩]
  finish operands := do
    if let [source, target] := operands.values then
      pushVar method source
      pushVar method target
      emit method [.copy]
      afterWrite method target
    release operands.temps

/-- The head of a block as a call. -/
def ofHead (method : String) (frame : BlockFrame) (kind : BlockKind) (d : PrimitiveDef)
    (action : ActionInstance) : Call where
  params := d.params
  sources := [⟨action.inputs, none⟩]
  finish operands := do
    let values ← if kind = .forLoop then loopValues action operands.values
      else pure operands.values
    emitHead method frame values kind
    release operands.temps

/-- The calls of a module's entry. -/
def ofEntry (method : String) (t : Renaming) (entry : ModuleEntry) (entryMethod : String)
    (copies : Option InstanceCopies) (action : ActionInstance) : Call where
  params := entryParams entry
  sources := repetitions action entry.repeatableFirst
  finish operands := do
    let carried := entry.params.zip operands.values
    copyInputs method t carried
    if let some c := copies then call method c.copyIn
    call method entryMethod
    if let some c := copies then call method c.copyOut
    copyOutputs method t carried
    release operands.temps

end Call

/-- Opens a block; its head is still to be emitted. -/
def prepareHead (method : String) (location : Location) (d : PrimitiveDef) (kind : BlockKind)
    (action : ActionInstance) (pending : Option String) : Emit Call := do
  let frame ← labelFrame (.ofBlock kind location) pending kind
  modifyBlocks (·.push frame)
  return .ofHead method frame kind d action

/-- Opens a block that may continue a conditional. -/
def prepareBlock (method : String) (location : Location) (d : PrimitiveDef) (kind : BlockKind)
    (action : ActionInstance) : Emit (Option Call) := do
  if kind.followsConditional then
    match ← takePendingExit method with
    | some exit => some <$> prepareHead method location d kind action (some exit)
    | none =>
        report (.mustFollowConditional d.id) location
        modifyBlocks (·.push (.ofBlock .plain location))
        return none
  else some <$> prepareHead method location d kind action none

/-- What a primitive action does once, and its calls. -/
def preparePrimitive (method : String) (location : Location) (d : PrimitiveDef)
    (action : ActionInstance) : EmitStep (Option Call) := do
  if let some hint := d.deprecated then
    (report (.deprecatedAction d.id hint) location : Emit Unit)
  match d.op with
  | .openBlock kind => (prepareBlock method location d kind action : Emit (Option Call))
  | .closeBlock => do
      closeBlock method location
      return none
  | .exitLoop => do
      (emitBreak method location : Emit Unit)
      return none
  | .nextIteration => do
      (emitContinue method location : Emit Unit)
      return none
  | .assign => return some (.ofAssign method d action)
  | .invoke signature => do
      unless d.repeatableFirst || action.multiInputs.isEmpty do
        (report (.actionDoesNotRepeat d.id) location : Emit Unit)
      return some (.ofInvocation method signature d action)

/-- The calls of an entry of a module that has been merged. -/
def prepareEntry (method : String) (location : Location) (callee : Linkable) (t : Renaming)
    (entry : ModuleEntry) (action : ActionInstance) (copies : Option InstanceCopies) :
    Emit (Option Call) := do
  unless entry.repeatableFirst || action.multiInputs.isEmpty do
    report (.entryDoesNotRepeat entry.id callee.key) location
  return (t.methods.get? entry.method).map fun entryMethod =>
    .ofEntry method t entry entryMethod copies action

/-- The calls of an action that calls a module. -/
def prepareModule (method : String) (location : Location) (callee : Linkable) (t : Renaming)
    (entry : ModuleEntry) (action : ActionInstance) : Emit (Option Call) := do
  if callee.interface.multiInstance then
    match action.action.moduleInstance? with
    | some guid => prepareEntry method location callee t entry action (t.instance? guid)
    | none =>
        report (.instanceRequired callee.key) location
        return none
  else prepareEntry method location callee t entry action none

/-- What an action does once, and its calls. -/
def prepare (ctx : Context) (method : String) (location : Location) (action : ActionInstance) :
    EmitStep (Option Call) := do
  let resolved := ctx.catalogue.resolve ctx.modules action.action
  unless resolved.followsConditional do (flushPrevious method : Emit Unit)
  match resolved with
  | .invalid reason => do
      (report (.unresolvedAction reason) location : Emit Unit)
      return none
  | .primitive d => preparePrimitive method location d action
  | .moduleEntry callee entry => do
      let t ← onLinkage (Linker.merge ctx.settings.includeEventHooks callee)
      (prepareModule method location callee t entry action : Emit (Option Call))

/-- Makes the calls that an action has, if any. -/
def runCalls (location : Location) : Option Call → Emit Unit
  | none => return ()
  | some c => c.run location

section

variable (ctx : Context) (method : String) (location : Location) (action : ActionInstance)

theorem emitInvocation_eq (d : PrimitiveDef) (signature : String) :
    emitInvocation method location d signature action = (do
      unless d.repeatableFirst || action.multiInputs.isEmpty do
        report (.actionDoesNotRepeat d.id) location
      (Call.ofInvocation method signature d action).run location) := rfl

theorem openBlock_eq (d : PrimitiveDef) (kind : BlockKind) :
    openBlock method location d kind action = (do
      runCalls location (← prepareBlock method location d kind action)) := by
  funext e
  rw [openBlock, run_bind, prepareBlock]
  split
  · rw [run_bind, run_bind]
    cases (takePendingExit method e).1 with
    | some exit => rfl
    | none => rfl
  · rfl

theorem emitPrimitive_eq (d : PrimitiveDef) : emitPrimitive method location d action = (do
    runCalls location (← preparePrimitive method location d action) : EmitStep Unit) := by
  have hop (x : EmitStep (Option Call)) (y : EmitStep Unit)
      (h : y = x >>= fun c => liftM (runCalls location c)) (hint? : Option String) :
      (do
        if let some hint := hint? then
          (report (.deprecatedAction d.id hint) location : Emit Unit)
        y : EmitStep Unit) = (do
        if let some hint := hint? then
          (report (.deprecatedAction d.id hint) location : Emit Unit)
        x) >>= fun c => liftM (runCalls location c) := by
    subst h
    cases hint? with
    | none => rfl
    | some hint => rfl
  refine hop _ _ ?_ d.deprecated
  cases d.op with
  | openBlock kind =>
    show (liftM (openBlock method location d kind action) : EmitStep Unit) = _
    rw [openBlock_eq]
    rfl
  | closeBlock =>
    dsimp only
    rw [bind_assoc]
    simp only [pure_bind]
    exact (bind_pure_unit).symm
  | invoke signature =>
    dsimp only
    rw [emitInvocation_eq]
    cases d.repeatableFirst || action.multiInputs.isEmpty with
    | true => rfl
    | false => rfl
  | _ => rfl

theorem emitEntryCalls_eq (callee : Linkable) (t : Renaming) (entry : ModuleEntry)
    (copies : Option InstanceCopies) :
    emitEntryCalls method location callee t entry action copies = (do
      runCalls location (← prepareEntry method location callee t entry action copies)) := by
  funext e
  rw [emitEntryCalls, prepareEntry]
  cases t.methods.get? entry.method with
  | none =>
    split
    · rfl
    · rfl
  | some entryMethod =>
    split
    · rfl
    · rfl

theorem emitModuleCall_eq (callee : Linkable) (entry : ModuleEntry) :
    emitModuleCall ctx method location callee entry action = (do
      let t ← onLinkage (Linker.merge ctx.settings.includeEventHooks callee)
      runCalls location
        (← (prepareModule method location callee t entry action : Emit (Option Call))) :
      EmitStep Unit) := by
  refine bind_congr fun t => ?_
  rw [prepareModule]
  split
  · cases action.action.moduleInstance? with
    | some guid =>
      dsimp only
      rw [emitEntryCalls_eq]
      rfl
    | none => rfl
  · rw [emitEntryCalls_eq]
    rfl

/-- An action makes its calls behind what it does once. -/
theorem emitAction_eq : emitAction ctx method location action = (do
    runCalls location (← prepare ctx method location action) : EmitStep Unit) := by
  have hflush (c : Bool) (x : EmitStep (Option Call)) (y : EmitStep Unit)
      (h : y = x >>= fun c => liftM (runCalls location c)) :
      (do
        unless c do (flushPrevious method : Emit Unit)
        y : EmitStep Unit) = (do
        unless c do (flushPrevious method : Emit Unit)
        x) >>= fun c => liftM (runCalls location c) := by
    subst h
    cases c with
    | false => rfl
    | true => rfl
  refine hflush _ _ _ ?_
  cases ctx.catalogue.resolve ctx.modules action.action with
  | invalid reason => rfl
  | primitive d => exact emitPrimitive_eq method location action d
  | moduleEntry callee entry =>
    dsimp only
    rw [emitModuleCall_eq, bind_assoc]

end

/-- The code of an action that has been looked up. -/
def emitResolved (ctx : Context) (method : String) (location : Location) (action : ActionInstance) :
    ResolvedAction → EmitStep Unit
  | .invalid reason => (report (.unresolvedAction reason) location : Emit Unit)
  | .primitive d => emitPrimitive method location d action
  | .moduleEntry callee entry => emitModuleCall ctx method location callee entry action

theorem run_emitAction (ctx : Context) (method : String) (location : Location)
    (action : ActionInstance) (e : Emission) :
    (emitAction ctx method location action).run e =
      (emitResolved ctx method location action (ctx.catalogue.resolve ctx.modules action.action)).run
        (if (ctx.catalogue.resolve ctx.modules action.action).followsConditional then e
          else (flushPrevious method e).2) := by
  rw [emitAction]
  generalize ctx.catalogue.resolve ctx.modules action.action = resolved
  dsimp only
  cases hfollows : resolved.followsConditional with
  | true => cases resolved <;> rfl
  | false => cases resolved <;> rfl

/-! ### Operands -/

/-- The place of a constant in the slot at a position. -/
def SlotSource.position (slots : SlotSource) (location : Location) (i : Nat) : LiteralPosition :=
  { event := location.event, action := location.action?.getD 0, multi := (slots.slot i).1, slot := i }

section

variable {action : ActionInstance}

theorem slot_mem_of_inputs {slots : SlotSource} (hinputs : slots.inputs = action.inputs)
    (hfirst : ∀ n input, slots.first? = some (n, input) → input ∈ action.multiInputs) (i : Nat) :
    (slots.slot i).2 = .default ∨ (slots.slot i).2 ∈ action.inputs ++ action.multiInputs := by
  have hown (j : Nat) : slots.inputs.getD j .default = .default ∨
      slots.inputs.getD j .default ∈ action.inputs ++ action.multiInputs := by
    rw [hinputs, List.getD_eq_getElem?_getD]
    cases hslot : action.inputs[j]? with
    | none => exact Or.inl rfl
    | some slot => exact Or.inr (List.mem_append_left _ (List.mem_of_getElem? hslot))
  unfold SlotSource.slot
  split
  · rename_i n input hsome
    exact Or.inr (List.mem_append_right _ (hfirst n input hsome))
  · exact hown _

theorem slot_mem_of_single {slots : SlotSource}
    (hslots : slots ∈ [(⟨action.inputs, none⟩ : SlotSource)]) (i : Nat) :
    (slots.slot i).2 = .default ∨ (slots.slot i).2 ∈ action.inputs ++ action.multiInputs := by
  rw [List.mem_singleton.mp hslots]
  refine slot_mem_of_inputs rfl (fun n input hfirst => ?_) i
  cases hfirst

theorem slot_mem_of_repetitions {repeatable : Bool} {slots : SlotSource}
    (hslots : slots ∈ repetitions action repeatable) (i : Nat) :
    (slots.slot i).2 = .default ∨ (slots.slot i).2 ∈ action.inputs ++ action.multiInputs := by
  unfold repetitions at hslots
  split at hslots
  · obtain ⟨p, hp, rfl⟩ := List.mem_map.mp hslots
    refine slot_mem_of_inputs rfl (fun n input hfirst => ?_) i
    cases hfirst
    exact (List.mem_zipIdx hp).2.2 ▸ List.getElem_mem _
  · exact slot_mem_of_single hslots i

end

/-- Fills the slot at a position. -/
def fillSlot (location : Location) (slots : SlotSource) (i : Nat) (spec : ParamSpec) :
    Emit (Option Operand) :=
  resolveSlot location
    { event := location.event, action := location.action?.getD 0, multi := (slots.slot i).1, slot := i }
    spec (slots.slot i).2

theorem fillSlot_eq (location : Location) (slots : SlotSource) (i : Nat) (spec : ParamSpec) :
    fillSlot location slots i spec =
      resolveSlot location (slots.position location i) spec (slots.slot i).2 := rfl

/-- Reports slots that no parameter matches. -/
def reportExtra (location : Location) (params : List ParamSpec) (slots : SlotSource) : Emit Unit :=
  if params.length < slots.inputs.length then
    report (.extraInputs (slots.inputs.length - params.length)) location
  else return ()

/-- The operands of a call whose slots have been looked at. -/
def collectOperands (results : List (Option Operand)) : Emit (Option Operands) :=
  let operands := Operands.ofList (results.filterMap id)
  if results.all Option.isSome then return some operands
  else do
    release operands.temps
    return none

theorem resolveOperands_eq (location : Location) (params : List ParamSpec) (slots : SlotSource) :
    resolveOperands location params slots = (do
      reportExtra location params slots
      collectOperands (← resolveFrom location slots 0 params)) := by
  rw [resolveOperands, reportExtra]
  split
  · rfl
  · rfl

/-! ### The parts of an event -/

/-- What stands before the actions of an event: its base, if the event can be built, and the replay mode
that takes effect. -/
def openEvent (ctx : Context) (index : Nat) (event : EventDecl) :
    Emit (Option (EventBase × ReplayMode)) := do
  let base? ← resolveBase ctx (.ofEvent index) event.trigger
  let delayFits ← checkDelay (.ofEvent index) event.options.delay
  match base?.filter fun _ => delayFits with
  | none => return none
  | some base =>
      let replay ← effectiveReplay (.ofEvent index) event.options
      modifyMethods (·.update base.method fun b =>
        { b with exported := b.exported || base.exported })
      return some (base, replay)

/-- The method that the actions of an event are compiled into. -/
def bodyMethod (index : Nat) (event : EventDecl) : Option (EventBase × ReplayMode) → String
  | none => s!"ev{index}__unreachable"
  | some (base, _) => if isChained event.options then s!"ev{index}__body" else base.method

/-- The variables of the parameters of an event. -/
def bodyParams : Option (EventBase × ReplayMode) → List VarId
  | none => []
  | some (base, _) => base.params

/-- What stands behind the actions of an event. -/
def closeEvent (index : Nat) (event : EventDecl) : Option (EventBase × ReplayMode) → Emit Unit
  | none => modifyMethods (·.remove s!"ev{index}__unreachable")
  | some (base, replay) => do
      let chain ←
        if isChained event.options then
          emitChain index base.method s!"ev{index}__body" replay event.options
        else pure { event := index, methods := [base.method], links := [] }
      modify fun e => { e with chains := e.chains ++ [chain] }

theorem emitEvent_eq (ctx : Context) (index : Nat) (event : EventDecl) :
    emitEvent ctx index event = (do
      let opened ← (openEvent ctx index event : Emit _)
      emitBody ctx (bodyMethod index event opened) index (bodyParams opened) event.actions
      (closeEvent index event opened : Emit Unit)) := by
  have hlift {α β : Type} (z : Emit α) (f : α → EmitStep β) (e : Emission) :
      ((liftM z : EmitStep α) >>= f).run e = (f (z e).1).run (z e).2 := rfl
  have hbind {α β : Type} (z : Emit α) (f : α → Emit β) (e : Emission) :
      (z >>= f) e = f (z e).1 (z e).2 := rfl
  refine ExceptT.ext (funext fun e => ?_)
  show (emitEvent ctx index event).run e = ExceptT.run (m := StateM Emission) _ e
  rw [emitEvent, hlift, hlift, hlift, openEvent, hbind, hbind]
  cases (resolveBase ctx (.ofEvent index) event.trigger e).1.filter fun _ =>
      (checkDelay (.ofEvent index) event.options.delay
        (resolveBase ctx (.ofEvent index) event.trigger e).2).1 with
  | none => rfl
  | some base =>
    dsimp only
    rw [hlift, hlift, hbind, hbind]
    generalize (checkDelay _ _ _).2 = e₂
    generalize (modifyMethods _ _).2 = e₃
    show _ = (emitBody ctx (if isChained event.options then s!"ev{index}__body" else base.method)
      index base.params event.actions >>= fun _ => liftM (closeEvent index event (some (base,
        (effectiveReplay (.ofEvent index) event.options e₂).1)))).run e₃
    cases hchained : isChained event.options with
    | true =>
      simp only [closeEvent, hchained, ↓reduceIte, Attempt.run_bind]
      rfl
    | false =>
      simp only [closeEvent, hchained, Bool.false_eq_true, ↓reduceIte, Attempt.run_bind]
      rfl

end Emit

end TriggerCompiler
