import TriggerCompiler.Catalogue.Resolution
import TriggerCompiler.Diagnostic
import TriggerCompiler.Machine.SymbolTable

/-! What can be wrong with the meaning of a program. None of these problems ends the compilation, so
that all of them are reported; but a program with an error is not finished. -/

namespace TriggerCompiler

/-- A problem with the meaning of a program. -/
inductive Problem where
  | illegalVariableName (name : String)
  | unsyncableVariable (name : String) (type : VarType)
  | syncedWithoutSync (name : String)
  | undeclarable (cause : SymbolTable.DeclareError)
  | frameDelayOutOfRange (frames : UInt32)
  | replayWithoutBroadcast
  | unknownEvent (name : String)
  | tooManyEventParams (name : String) (takes got : Nat)
  | illegalEventName (name : String)
  | ambiguousEvent (name : String)
  | repeatedParameterizedEvent (name : String)
  | unwatchedVariable (guid : Guid)
  | unresolvedAction (reason : UnresolvedAction)
  | deprecatedAction (id hint : String)
  | constantOutput (param : String)
  | thisOutput (param : String)
  | unknownVariable (param : String) (guid : Guid)
  | declaringInput (param : String)
  | extraInputs (count : Nat)
  | actionDoesNotRepeat (id : String)
  | entryDoesNotRepeat (entry key : String)
  | breakOutsideLoop
  | continueOutsideLoop
  | mustFollowConditional (id : String)
  | instanceRequired (key : String)
deriving DecidableEq

namespace Problem

def isWarning : Problem → Bool
  | syncedWithoutSync _ => true
  | replayWithoutBroadcast => true
  | ambiguousEvent _ => true
  | deprecatedAction .. => true
  | unknownVariable .. => true
  | extraInputs _ => true
  | actionDoesNotRepeat _ => true
  | entryDoesNotRepeat .. => true
  | _ => false

def message : Problem → String
  | illegalVariableName name => s!"variable name '{name}' is not a legal identifier"
  | unsyncableVariable name type =>
      s!"variable '{name}' of type {type.machineName} cannot be synced"
  | syncedWithoutSync name => s!"variable '{name}' is synced but the program does not sync"
  | undeclarable cause => cause.message
  | frameDelayOutOfRange frames => s!"delay of {frames.toNat} frames is out of range"
  | replayWithoutBroadcast => "replay has no effect on an event that is not broadcast"
  | unknownEvent name => s!"unknown event '{name}'"
  | tooManyEventParams name takes got => s!"event '{name}' takes {takes} parameter(s), got {got}"
  | illegalEventName name => s!"custom event name '{name}' is not a legal identifier"
  | ambiguousEvent name =>
      s!"event '{name}' is ambiguous with a parameterized event of the same name"
  | repeatedParameterizedEvent name =>
      s!"parameterized event '{name}' is declared more than once"
  | unwatchedVariable guid =>
      s!"change event refers to variable {guid.text} which is not watched"
  | unresolvedAction reason => reason.message
  | deprecatedAction id hint => s!"action '{id}' is deprecated: {hint}"
  | constantOutput param => s!"output '{param}' cannot be a constant"
  | thisOutput param => s!"output '{param}' cannot target this object"
  | unknownVariable param guid => s!"'{param}' refers to unknown variable {guid.text}"
  | declaringInput param => s!"input '{param}' cannot declare a variable"
  | extraInputs count => s!"{count} extra input(s) ignored"
  | actionDoesNotRepeat id => s!"action '{id}' does not repeat; extra inputs ignored"
  | entryDoesNotRepeat entry key =>
      s!"entry '{entry}' of module '{key}' does not repeat; extra inputs ignored"
  | breakOutsideLoop => "'break' outside of a loop"
  | continueOutsideLoop => "'continue' outside of a loop"
  | mustFollowConditional id => s!"'{id}' must follow an 'if' or 'else_if' block"
  | instanceRequired key => s!"module '{key}' needs an instance for each call"

end Problem

structure Finding where
  problem : Problem
  location? : Option Location
deriving DecidableEq

namespace Finding

def isError (f : Finding) : Bool := !f.problem.isWarning

def toDiagnostic (f : Finding) (issuer : String) : Diagnostic :=
  { level := if f.problem.isWarning then .warning else .error
    message := f.problem.message
    issuer
    location? := f.location? }

end Finding

end TriggerCompiler
