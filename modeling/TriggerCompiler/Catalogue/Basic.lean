import TriggerCompiler.Catalogue.Builtin
import TriggerCompiler.OrderedMap

/-! The catalogue of the actions and events that a program may use. It grows by whole manifests, and a
name that is registered keeps its meaning. -/

namespace TriggerCompiler

/-- The registered actions and events, in the order of registration. -/
structure Catalogue where
  primitives : OrderedMap String PrimitiveDef := .empty
  events : OrderedMap String EventDef := .empty
deriving DecidableEq, Inhabited

namespace Catalogue

def empty : Catalogue := {}

/-- Adds all actions and events of a manifest, without any check. -/
def add (c : Catalogue) (m : Manifest) : Catalogue where
  primitives := m.actions.foldl (fun ps a => ps.insert a.id a) c.primitives
  events := m.events.foldl (fun es e => es.insert e.name e) c.events

/-- Adds a manifest that is valid by itself and brings no name that is registered already. -/
def register (c : Catalogue) (m : Manifest) : Except ManifestError Catalogue := do
  m.validate
  match m.actions.find? fun a => c.primitives.contains a.id with
  | some a => throw (.actionRegistered m.name a.id)
  | none =>
      match m.events.find? fun e => c.events.contains e.name with
      | some e => throw (.eventRegistered m.name e.name)
      | none => return c.add m

def builtin : Catalogue := empty.add Manifest.builtin

/-- Registers manifests in order on top of the actions and events of every program. -/
def ofManifests (manifests : List Manifest) : Except ManifestError Catalogue :=
  manifests.foldlM register builtin

def primitive? (c : Catalogue) (id : String) : Option PrimitiveDef := c.primitives.get? id

def event? (c : Catalogue) (name : String) : Option EventDef := c.events.get? name

end Catalogue

end TriggerCompiler
