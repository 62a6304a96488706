import TriggerCompiler.Machine.Program

/-! The image of a program: its heap slots with their initial values and its methods, as the assembler
takes them, and the text of the image in assembly language. -/

namespace TriggerCompiler

structure HeapEntry where
  name : String
  type : VarType
  default : Value
  exported : Bool := false
  sync : SyncMode := .notSynced
deriving DecidableEq

/-- The heap layout and the methods of a program. -/
structure Image where
  heap : List HeapEntry := []
  methods : List Method := []
deriving DecidableEq, Inhabited

namespace HeapEntry

def ofVariable (v : Variable) : HeapEntry :=
  { name := v.name, type := v.type, default := v.default, exported := v.exported, sync := v.sync }

def toJson (e : HeapEntry) : Json := .obj [
  ("name", .str e.name),
  ("type", e.type.toJson),
  ("default", e.default.toJson),
  ("exported", .bool e.exported),
  ("sync", e.sync.toJson)]

def ofJson? (j : Json) : Option HeapEntry := do
  let m : Members ← j.members? ["name", "type", "default", "exported", "sync"]
  return {
    name := ← m.required "name" Json.string?
    type := ← m.required "type" VarType.ofJson?
    default := ← m.required "default" Value.ofJson?
    exported := ← m.optional "exported" Json.bool? false
    sync := ← m.optional "sync" SyncMode.ofJson? .notSynced }

def directiveLines (e : HeapEntry) : List String :=
  (if e.exported then [s!"    .export {e.name}"] else []) ++
    (if e.sync.isSynced then [s!"    .sync {e.name}, {e.sync.directive}"] else [])

def declarationLine (e : HeapEntry) : String :=
  s!"    {e.name}: %{e.type.machineName}, {e.default.text}"

end HeapEntry

def Method.lines (m : Method) : List String :=
  (if m.exported then [s!"    .export {m.name}"] else []) ++
    s!"    {m.name}:" :: m.code.map (fun i => "        " ++ i.text) ++ [""]

namespace Image

def ofProgram (p : Program) : Image where
  heap := p.symbols.toList.map fun e => .ofVariable e.2
  methods := p.methods.toList

/-- The number of slots of the smallest heap that holds the program. -/
def heapSize (i : Image) : Nat := i.heap.length

def heapIndex? (i : Image) (name : String) : Option Nat := i.heap.findIdx? (·.name = name)

def lines (i : Image) : List String :=
  ".data_start" :: i.heap.flatMap HeapEntry.directiveLines ++ i.heap.map HeapEntry.declarationLine ++
    [".data_end", "", ".code_start"] ++ i.methods.flatMap Method.lines ++ [".code_end"]

def render (i : Image) : String := i.lines.foldl (fun out line => out ++ line ++ "\n") ""

end Image

end TriggerCompiler
