import TriggerCompiler.Machine.Layout
import TriggerCompiler.Machine.SymbolTable

/-! A program of the machine: its heap and its methods. -/

namespace TriggerCompiler

structure Program where
  symbols : SymbolTable := {}
  methods : MethodTable := {}
deriving DecidableEq, Inhabited

namespace Program

/-- Replaces the labels that variables hold by their addresses, up to the first unknown one. -/
def resolveDefaults (known : AddressMap) : List VarId → Attempt Program Unit
  | [] => pure ()
  | id :: rest => do
      match ((← get).symbols.get? id).map Variable.default with
      | some (.label l) =>
          match known.lookup l with
          | some a =>
              modify fun p => { p with
                symbols := p.symbols.modifyVar id fun v => { v with default := .uint a } }
              resolveDefaults known rest
          | none => throw (.unresolvedLabel l)
      | _ => resolveDefaults known rest

/-- Fills in the addresses of all jumps and of all variables that hold a label. -/
def resolveAddresses : Attempt Program Unit := do
  let known ← onMethods MethodTable.resolveAddresses
  resolveDefaults known (← get).symbols.vars.keys
where
  onMethods {α : Type} (step : Attempt MethodTable α) : Attempt Program α := ExceptT.mk fun p =>
    let (result, methods) := step.run p.methods
    (result, { p with methods })

def code (p : Program) : List Instruction := p.methods.toList.flatMap Method.code

def referenceCount (p : Program) (symbol : String) : Nat :=
  (p.code.filter fun i => i.symbol? = some symbol).length

end Program

end TriggerCompiler
