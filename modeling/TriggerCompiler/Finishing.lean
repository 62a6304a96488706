import TriggerCompiler.Catalogue.Builtin
import TriggerCompiler.Machine.Program
import TriggerCompiler.Settings

/-! The steps between the emitted code of a program and its image, in their order. Methods that variables
name become exported; requests for serialization and the fetching of the local player add code; every
method gets its prologue and its return sequence; the system variables that no instruction names are
removed; and the addresses are filled in. -/

namespace TriggerCompiler

/-- What the finishing steps found out about a program. -/
structure FinishReport where
  requiresNetwork : Bool
  /-- The number of methods that request serialization. -/
  serializationRequests : Nat
  /-- The system variables that were removed. -/
  pruned : List String
deriving DecidableEq

namespace Program

/-- Lets the machine call the methods that variables name. -/
def exportNamedMethods (p : Program) : Program :=
  { p with methods := p.symbols.namedMethods.foldl MethodTable.exportExisting p.methods }

/-- Whether a call with the given operands, last one first, is a network call on this object. -/
def isOwnNetworkCall (signature : String) (pushed : List String) : Bool :=
  match networkCalls.find? (·.signature = signature) with
  | none => false
  | some c =>
      c.operands ≤ pushed.length &&
        pushed[c.operands - 1 - c.target]? = some SystemVariable.this.name

/-- Whether code calls a network function on this object. The first argument lists the variables that
are pushed directly before the code, last one first. -/
def hasNetworkCall : List String → List Instruction → Bool
  | _, [] => false
  | pushed, .push s :: rest => hasNetworkCall (s :: pushed) rest
  | pushed, .invoke signature :: rest =>
      isOwnNetworkCall signature pushed || hasNetworkCall [] rest
  | _, _ :: rest => hasNetworkCall [] rest

/-- Whether a program has a synced variable or calls a network function on this object. -/
def requiresNetwork (p : Program) : Bool :=
  p.symbols.toList.any (fun e => e.2.sync.isSynced) ||
    p.methods.toList.any fun m => hasNetworkCall [] m.code

def serializationRequest : List Instruction :=
  [.push SystemVariable.this.name, .invoke Signature.requestSerialization]

/-- Lets every method that writes a synced variable end with a request for serialization, and returns
how many there are. -/
def requestSerialization (p : Program) : Nat × Program :=
  let names := (p.methods.toList.filter Method.containsSentinel).map Method.name
  if names.isEmpty then (0, p)
  else (names.length, {
    symbols := (p.symbols.system .this).2
    methods := names.foldl (fun t name => t.emit name serializationRequest) p.methods })

/-- The method that the machine calls when the program starts. -/
def startMethod : String := "_start"

/-- Fetches the local player at the start, if some instruction names it. -/
def initLocalPlayer (p : Program) : Program :=
  let name := SystemVariable.localPlayer.name
  if (p.symbols.idOfName? name).isNone || p.referenceCount name = 0 then p
  else { p with methods := p.methods.update startMethod fun b =>
    { exported := true, code := [.push name, .invoke Signature.getLocalPlayer] ++ b.code } }

/-- A method between its prologue and its return sequence. A method that the machine calls finds no
return address, so it pushes the address that ends the execution. -/
def wrapBody (halt back name : String) (b : MethodBody) : MethodBody :=
  { b with code :=
      (if b.exported then [.push halt] else []) ++ .label (entryLabel name) :: b.code ++
        [.label (endLabel name), .push back, .copy, .jumpIndirect back] }

def addReturnSequences (p : Program) : Program :=
  if p.methods.bodies.isEmpty then p
  else
    let (haltId, symbols) := p.symbols.system .haltAddress
    let halt := symbols.nameOf haltId
    let (backId, symbols) := symbols.system .returnJump
    let back := symbols.nameOf backId
    { symbols
      methods := { p.methods with bodies := p.methods.bodies.mapValues (wrapBody halt back) } }

/-- Removes system variables that no instruction names, and returns their names. -/
def pruneSystemVariables (p : Program) : List SystemVariable → List String × Program
  | [] => ([], p)
  | which :: rest =>
      match p.symbols.idOfName? which.name with
      | none => p.pruneSystemVariables rest
      | some id =>
          if p.referenceCount which.name = 0 then
            let (names, p) :=
              { p with symbols := (p.symbols.remove id).2 }.pruneSystemVariables rest
            (which.name :: names, p)
          else p.pruneSystemVariables rest

/-- Everything before the addresses are filled in. -/
def prepare (p : Program) (sync : SyncMethod) (settings : Settings) : FinishReport × Program :=
  let p := p.exportNamedMethods
  let network := p.requiresNetwork
  let (requests, p) :=
    if sync = .manual && settings.autoRequestSerialization then p.requestSerialization else (0, p)
  let (pruned, p) := p.initLocalPlayer.addReturnSequences.pruneSystemVariables SystemVariable.all
  ({ requiresNetwork := network, serializationRequests := requests, pruned }, p)

def finish (sync : SyncMethod) (settings : Settings) : Attempt Program FinishReport := do
  let (report, p) := (← get).prepare sync settings
  set p
  resolveAddresses
  return report

end Program

end TriggerCompiler
