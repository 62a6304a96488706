import TriggerCompiler.Catalogue.Basic
import TriggerCompiler.Linking.Module

/-! What an action of a program stands for: a primitive action of the catalogue, an entry of a module
that has been compiled, or nothing. -/

namespace TriggerCompiler

inductive UnresolvedAction where
  | unknownAction (id : String)
  | moduleNotCompiled (key : String)
  | noEntry (key entry : String)
deriving DecidableEq

def UnresolvedAction.message : UnresolvedAction → String
  | unknownAction id => s!"unknown action '{id}'"
  | moduleNotCompiled key => s!"module '{key}' is not compiled"
  | noEntry key entry => s!"module '{key}' has no entry '{entry}'"

/-- What an action stands for. -/
inductive ResolvedAction where
  | primitive (definition : PrimitiveDef)
  | moduleEntry (callee : Linkable) (entry : ModuleEntry)
  | invalid (reason : UnresolvedAction)

/-- What an action does to the structure of an event. -/
inductive ActionTarget where
  | primitive (id : String)
  | moduleEntry (key entry : String)
  | opensBlock (kind : BlockKind)
  | closesBlock
deriving DecidableEq

def Catalogue.resolve (c : Catalogue) (modules : ModuleCache) : ActionRef → ResolvedAction
  | .primitive id =>
      match c.primitive? id with
      | some definition => .primitive definition
      | none => .invalid (.unknownAction id)
  | .moduleEntry key id _ =>
      match modules.get? key with
      | none => .invalid (.moduleNotCompiled key)
      | some callee =>
          match callee.entry? id with
          | some entry => .moduleEntry callee entry
          | none => .invalid (.noEntry key id)

namespace ResolvedAction

def target? : ResolvedAction → Option ActionTarget
  | primitive d =>
      match d.op with
      | .openBlock kind => some (.opensBlock kind)
      | .closeBlock => some .closesBlock
      | _ => some (.primitive d.id)
  | moduleEntry callee entry => some (.moduleEntry callee.key entry.id)
  | invalid _ => none

def followsConditional (r : ResolvedAction) : Bool :=
  match r.target? with
  | some (.opensBlock kind) => kind.followsConditional
  | _ => false

end ResolvedAction

end TriggerCompiler
