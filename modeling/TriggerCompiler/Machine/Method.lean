import TriggerCompiler.Failure
import TriggerCompiler.Machine.Instruction
import TriggerCompiler.OrderedMap

/-! Methods: named lists of instructions. The table of a program keeps its methods in the order in which
they were first asked for, and hands out jump labels that it has not handed out before. -/

namespace TriggerCompiler

structure Method where
  name : String
  exported : Bool := false
  code : List Instruction := []
deriving DecidableEq

/-- The label behind the prologue of a method, which callers jump to. -/
def entryLabel (method : String) : String := method ++ "__entry"

/-- The label before the return sequence of a method. -/
def endLabel (method : String) : String := method ++ "__end"

namespace Method

/-- Whether the method writes a synced variable. -/
def containsSentinel (m : Method) : Bool := m.code.any Instruction.isSentinel

def size (m : Method) : Nat := codeSize m.code

def toJson (m : Method) : Json := .obj [
  ("name", .str m.name),
  ("exported", .bool m.exported),
  ("instructions", .arr (m.code.map Instruction.toJson))]

def ofJson? (j : Json) : Option Method := do
  let m : Members ← j.members? ["name", "exported", "instructions"]
  return {
    name := ← m.required "name" Json.string?
    exported := ← m.required "exported" Json.bool?
    code := ← m.required "instructions" (Json.list? Instruction.ofJson?) }

end Method

/-- What a table knows about a method besides its name. -/
structure MethodBody where
  exported : Bool := false
  code : List Instruction := []
deriving DecidableEq, Inhabited

/-- The methods of a program in layout order, and the number of labels handed out. -/
structure MethodTable where
  bodies : OrderedMap String MethodBody := .empty
  labelCount : Nat := 0
deriving DecidableEq, Inhabited

namespace MethodTable

def toList (t : MethodTable) : List Method :=
  t.bodies.entries.map fun e => { name := e.1, exported := e.2.exported, code := e.2.code }

def names (t : MethodTable) : List String := t.bodies.keys

def get? (t : MethodTable) (name : String) : Option Method :=
  (t.bodies.get? name).map fun b => { name, exported := b.exported, code := b.code }

def contains (t : MethodTable) (name : String) : Bool := t.bodies.contains name

/-- Changes a method, which is created empty if there is none of the name. -/
def update (t : MethodTable) (name : String) (f : MethodBody → MethodBody) : MethodTable :=
  { t with bodies := t.bodies.insert name (f ((t.bodies.get? name).getD {})) }

def ensure (t : MethodTable) (name : String) : MethodTable := t.update name id

def emit (t : MethodTable) (name : String) (code : List Instruction) : MethodTable :=
  t.update name fun b => { b with code := b.code ++ code }

def prepend (t : MethodTable) (name : String) (code : List Instruction) : MethodTable :=
  t.update name fun b => { b with code := code ++ b.code }

/-- Sets whether the machine may call a method by name; the method is created if needed. -/
def setExported (t : MethodTable) (name : String) (exported : Bool) : MethodTable :=
  t.update name fun b => { b with exported }

/-- Lets the machine call a method by name, if there is one of the name. -/
def exportExisting (t : MethodTable) (name : String) : MethodTable :=
  { t with bodies := t.bodies.modify name fun b => { b with exported := true } }

/-- Adds a method: as a new one, or behind the code of the one that has its name. -/
def merge (t : MethodTable) (m : Method) : MethodTable :=
  t.update m.name fun b => { exported := b.exported || m.exported, code := b.code ++ m.code }

def remove (t : MethodTable) (name : String) : MethodTable := { t with bodies := t.bodies.erase name }

def newLabel (t : MethodTable) (hint : String) : String × MethodTable :=
  (s!"__lbl_{hint}_{t.labelCount}", { t with labelCount := t.labelCount + 1 })

end MethodTable

end TriggerCompiler
