import TriggerCompiler.Diagnostic

/-! Structural failures. One of them ends the compilation of the program in which it occurs. -/

namespace TriggerCompiler

inductive AssembleError where
  | heapTooSmall (given required : Nat)
  | unknownSymbol (method symbol : String)
  | unresolvedTarget (method label : String)
deriving DecidableEq

def AssembleError.message : AssembleError → String
  | heapTooSmall given required =>
      s!"heap size {given} is smaller than the {required} slot(s) the program declares"
  | unknownSymbol method symbol =>
      s!"instruction in '{method}' references unknown symbol '{symbol}'"
  | unresolvedTarget method label => s!"jump in '{method}' still targets label '{label}'"

/-- Why a program cannot be compiled. -/
inductive Failure where
  /-- A block ends that is not open. -/
  | unbalancedScope (location : Location)
  /-- An event ends while blocks are open. -/
  | unclosedScope (event count : Nat)
  | unresolvedLabel (label : String)
  | duplicateLabel (label : String)
  /-- The interface of a module names a method or variable that the module does not have. -/
  | missingModuleSlot (key slot : String)
  /-- A method of a module uses a symbol that the module does not declare. -/
  | undeclaredSymbol (key method symbol : String)
  /-- A method of a module jumps to a label that the module does not have. -/
  | unknownJumpLabel (key method label : String)
  | dependencyCycle (path : List String)
  | assembler (cause : AssembleError)
deriving DecidableEq

namespace Failure

def message : Failure → String
  | unbalancedScope location => s!"scope end without a matching block at {location.text}"
  | unclosedScope event count => s!"event {event} ends with {count} unclosed block(s)"
  | unresolvedLabel label => s!"unresolved jump label '{label}'"
  | duplicateLabel label => s!"label '{label}' is defined more than once"
  | missingModuleSlot key slot => s!"module '{key}' is missing expected slot '{slot}'"
  | undeclaredSymbol key method symbol =>
      s!"failed to merge module '{key}': method '{method}' uses undeclared symbol '{symbol}'"
  | unknownJumpLabel key method label =>
      s!"failed to merge module '{key}': method '{method}' jumps to unknown label '{label}'"
  | dependencyCycle path => "dependency cycle: " ++ " -> ".intercalate path
  | assembler cause => s!"assembler rejected program: {cause.message}"

def location? : Failure → Option Location
  | unbalancedScope location => some location
  | unclosedScope event _ => some (.ofEvent event)
  | _ => none

def toDiagnostic (f : Failure) (issuer : String) : Diagnostic :=
  { level := .critical, message := f.message, issuer, location? := f.location? }

end Failure

/-- A step that may fail and that keeps the changes made before the failure. -/
abbrev Attempt (σ : Type) := ExceptT Failure (StateM σ)

end TriggerCompiler
