import TriggerCompiler.Catalogue.Builtin
import TriggerCompiler.Emission.Block
import TriggerCompiler.Emission.Problem
import TriggerCompiler.EventChain
import TriggerCompiler.Linking.Merge
import TriggerCompiler.Reference
import TriggerCompiler.Settings

/-! The state of a compilation while the code of a program is emitted, and the steps that all emission
is made of: calls, the bookkeeping behind a write, and the constants of the source. -/

namespace TriggerCompiler

/-- What a compilation looks things up in. -/
structure Context where
  source : ProgramSource
  catalogue : Catalogue
  modules : ModuleCache
  settings : Settings

/-- The program under construction and all that is known about it. -/
structure Emission where
  program : Program := {}
  linker : Linker := {}
  blocks : BlockStack := {}
  findings : List Finding := []
  references : List Reference := []
  chains : List EventChain := []
  /-- The variables of the constants of the source. -/
  literals : OrderedMap LiteralPosition VarId := .empty
  /-- The custom events with parameters that have been emitted. -/
  seenParameterized : List String := []
deriving Inhabited

/-- A step of emission that cannot fail. -/
abbrev Emit := StateM Emission

namespace Emit

def report (problem : Problem) (location? : Option Location) : Emit Unit :=
  modify fun e => { e with findings := e.findings ++ [{ problem, location? }] }

def onSymbols {α : Type} (f : SymbolTable → α × SymbolTable) : Emit α := fun e =>
  let (a, symbols) := f e.program.symbols
  (a, { e with program := { e.program with symbols } })

def modifySymbols (f : SymbolTable → SymbolTable) : Emit Unit := onSymbols fun t => ((), f t)

def modifyMethods (f : MethodTable → MethodTable) : Emit Unit :=
  modify fun e => { e with program := { e.program with methods := f e.program.methods } }

def modifyBlocks (f : BlockStack → BlockStack) : Emit Unit :=
  modify fun e => { e with blocks := f e.blocks }

def nameOf (id : VarId) : Emit String := do return (← get).program.symbols.nameOf id

/-- The heap name of a variable that a step on the heap returns. -/
def namedSymbol (f : SymbolTable → VarId × SymbolTable) : Emit String := do nameOf (← onSymbols f)

def emit (method : String) (code : List Instruction) : Emit Unit :=
  modifyMethods (·.emit method code)

def pushVar (method : String) (id : VarId) : Emit Unit := do emit method [.push (← nameOf id)]

def newLabel (hint : String) : Emit String := fun e =>
  let (label, methods) := e.program.methods.newLabel hint
  (label, { e with program := { e.program with methods } })

/-- Calls a method: pushes the address behind the call and jumps to the entry of the method. -/
def call (method callee : String) : Emit Unit := do
  let behind ← newLabel "ret"
  let address ← namedSymbol (·.labelConstant behind)
  modifyMethods (·.ensure callee)
  emit method [.push address, .jumpTo (entryLabel callee), .label behind]

/-- Compares a watched variable with its previous value and calls a method if they differ. -/
def checkChange (method : String) (id : VarId) (watched callback : String) : Emit Unit := do
  match ← onSymbols (·.ensurePrevious id) with
  | none => return
  | some previousId =>
      let previous ← nameOf previousId
      let flagId ← onSymbols (·.acquireTemp .bool)
      let flag ← nameOf flagId
      let changed ← newLabel "changed"
      let same ← newLabel "same"
      emit method [
        .push watched, .push previous, .push flag, .invoke Signature.objectEquals,
        .push flag, .jumpToIfFalse changed, .jumpTo same,
        .label changed, .push watched, .push previous, .copy]
      call method callback
      emit method [.label same]
      modifySymbols (·.releaseTemp flagId)

/-- What must follow a write: the check for a change of a watched variable, and the mark of a write to
a synced one. -/
def afterWrite (method : String) (id : VarId) : Emit Unit := do
  match (← get).program.symbols.get? id with
  | none => return
  | some v =>
      if let some callback := v.onChange then
        checkChange method id v.name callback
      if v.sync.isSynced then emit method [.sentinel]

/-- The variable of the constant at a place of the source. The first request for a place records a
reference. -/
def literal (position : LiteralPosition) (type : VarType) (value : Value) : Emit VarId := do
  match (← get).literals.get? position with
  | some id => return id
  | none =>
      let id ← onSymbols (·.literal position.symbol type value)
      modify fun e => { e with
        references := e.references ++ [{ position, symbol := position.symbol, type }]
        literals := e.literals.insert position id }
      return id

end Emit

/-- A step of emission that may fail. -/
abbrev EmitStep := Attempt Emission

namespace Emission

def hasErrors (e : Emission) : Bool := e.findings.any Finding.isError

end Emission

end TriggerCompiler
