import TriggerCompiler.Emission.State

/-! The methods around the body of an event. A gate lets only some clients in, a delay and a broadcast
send the event on by name, and replay counts the occurrences of a broadcast event, so that a client who
missed some of them can catch up. -/

namespace TriggerCompiler

namespace Emit

/-- Asks whether the local player owns this object; the answer is in a temporary that may be leased
again at once. -/
def emitOwnerCheck (method : String) : Emit String := do
  let player ← namedSymbol (·.system .localPlayer)
  let this ← namedSymbol (·.system .this)
  let flagId ← onSymbols (·.acquireTemp .bool)
  let flag ← nameOf flagId
  emit method [.push player, .push this, .push flag, .invoke Signature.isOwner]
  modifySymbols (·.releaseTemp flagId)
  return flag

def increment (counter one : String) : List Instruction :=
  [.push counter, .push one, .push counter, .invoke Signature.intAdd]

def emitGateCheck (base : String) (player flag : String) : Gate → Emit Unit
  | .owner => do
      let this ← namedSymbol (·.system .this)
      emit base [.push player, .push this, .push flag, .invoke Signature.isOwner]
  | .master => emit base [.push player, .push flag, .invoke Signature.isMaster]
  | .anyone => return ()

/-- Calls the rest of a chain from the base method, for the players that pass the gate. -/
def emitGate (base target : String) (gate : Gate) : Emit Unit := do
  let skip ← newLabel "gate"
  if gate = .anyone then
    call base target
    emit base [.label skip]
  else
    let player ← namedSymbol (·.system .localPlayer)
    let flagId ← onSymbols (·.acquireTemp .bool)
    let flag ← nameOf flagId
    emitGateCheck base player flag gate
    emit base [.push flag, .jumpToIfFalse skip]
    call base target
    emit base [.label skip]
    modifySymbols (·.releaseTemp flagId)

/-- The constant that names a method, which the machine may call from now on. -/
def methodConstant (target : String) : Emit String := do
  modifyMethods (·.setExported target true)
  namedSymbol (·.constant .string (.method target))

def emitBroadcast (event : Nat) (target : String) (broadcast : Broadcast) : Emit String := do
  let method := s!"ev{event}__broadcast"
  let receivers : Int32 := if broadcast = .owner then 1 else 0
  let this ← namedSymbol (·.system .this)
  let mode ← namedSymbol (·.constant (.other "NetworkEventTarget") (.int receivers))
  let name ← methodConstant target
  emit method [.push this, .push mode, .push name, .invoke Signature.sendNetworkEvent]
  return method

/-- The amount of a delay as a constant, and the function that waits for it. -/
def delayCall : Delay → VarType × Value × String
  | .frames n => (.int, .int (Int32.ofInt n.toNat), Signature.sendDelayedFrames)
  | .seconds s => (.float, .float s, Signature.sendDelayedSeconds)
  | .none => (.int, .int 0, Signature.sendDelayedFrames)

def emitDelay (event : Nat) (target : String) (delay : Delay) : Emit String := do
  let method := s!"ev{event}__delay"
  let (type, value, signature) := delayCall delay
  let amount ← namedSymbol (·.constant type value)
  let this ← namedSymbol (·.system .this)
  let name ← methodConstant target
  emit method [.push this, .push name, .push amount, .invoke signature]
  return method

/-- The method that the machine calls after synced variables have arrived. -/
def deserializationHook : String := "_onDeserialization"

/-- Catches up one occurrence if the numbers of occurrences and of runs differ in parity. -/
def emitParityCatchUp (body counter executed flag : String) : Emit Unit := do
  let hook := deserializationHook
  let two ← namedSymbol (·.constant .int (.int 2))
  let ranId ← onSymbols (·.acquireTemp .int)
  let sentId ← onSymbols (·.acquireTemp .int)
  let ran ← nameOf ranId
  let sent ← nameOf sentId
  let run ← newLabel "catchup_run"
  let sync ← newLabel "catchup_sync"
  emit hook [
    .push executed, .push two, .push ran, .invoke Signature.intRemainder,
    .push counter, .push two, .push sent, .invoke Signature.intRemainder,
    .push ran, .push sent, .push flag, .invoke Signature.intEquals,
    .push flag, .jumpToIfFalse run, .jumpTo sync, .label run]
  call hook body
  emit hook [.label sync, .push counter, .push executed, .copy]
  modifySymbols (·.releaseTemp ranId)
  modifySymbols (·.releaseTemp sentId)

def emitFullCatchUp (body counter executed one flag done : String) : Emit Unit := do
  let hook := deserializationHook
  let head ← newLabel "catchup_loop"
  emit hook [
    .label head, .push executed, .push counter, .push flag, .invoke Signature.intLess,
    .push flag, .jumpToIfFalse done]
  emit hook (increment executed one)
  call hook body
  emit hook [.jumpTo head]

/-- Lets a client that is not the owner catch up when the number of occurrences arrives. -/
def emitCatchUp (body counter executed one : String) (mode : ReplayMode) : Emit Unit := do
  let hook := deserializationHook
  modifyMethods (·.setExported hook true)
  let remote ← newLabel "catchup"
  let done ← newLabel "catchup_done"
  let owner ← emitOwnerCheck hook
  emit hook [.push owner, .jumpToIfFalse remote, .jumpTo done, .label remote]
  let flagId ← onSymbols (·.acquireTemp .bool)
  let flag ← nameOf flagId
  if mode = .parity then emitParityCatchUp body counter executed flag
  else emitFullCatchUp body counter executed one flag done
  modifySymbols (·.releaseTemp flagId)
  emit hook [.label done]

/-- The method that counts the occurrences of an event: the owner in a synced variable, every client the
ones it ran. -/
def emitReplay (event : Nat) (body : String) (mode : ReplayMode) : Emit String := do
  let method := s!"ev{event}__replay"
  let counterId ← onSymbols (·.declareInternal s!"__replay_{event}" .int (.int 0))
  modifySymbols (·.modifyVar counterId fun v => { v with sync := .synced })
  let executedId ← onSymbols (·.declareInternal s!"__replayed_{event}" .int (.int 0))
  let counter ← nameOf counterId
  let executed ← nameOf executedId
  let one ← namedSymbol (·.constant .int (.int 1))
  let remote ← newLabel "replay_remote"
  let owner ← emitOwnerCheck method
  emit method [.push owner, .jumpToIfFalse remote]
  emit method (increment counter one)
  emit method [.sentinel, .label remote]
  emit method (increment executed one)
  call method body
  emitCatchUp body counter executed one mode
  return method

end Emit

end TriggerCompiler
