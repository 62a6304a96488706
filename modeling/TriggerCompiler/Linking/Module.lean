import TriggerCompiler.Machine.Program
import TriggerCompiler.Trigger.Source

/-! Modules: compiled programs that other programs can be linked with. -/

namespace TriggerCompiler

/-- A module, before the finishing steps of a program of its own. -/
structure Linkable where
  key : String
  interface : ModuleInterface
  program : Program
  /-- The modules that are part of the program, each with the beginning of its names there. -/
  nested : List (String × Linkable)
deriving Inhabited

/-- The modules that programs may call, by key. -/
abbrev ModuleCache := OrderedMap String Linkable

/-- Publishes a module, in place of one with the same key. -/
def ModuleCache.publish (c : ModuleCache) (m : Linkable) : ModuleCache := c.insert m.key m

def Linkable.entry? (m : Linkable) (id : String) : Option ModuleEntry :=
  m.interface.entries.find? (·.id = id)

end TriggerCompiler
