import TriggerCompiler.Failure
import TriggerCompiler.Linking.Module
import TriggerCompiler.Text.Affix

/-! The names of a module inside a program that it is merged into. Every name of the module gets a
beginning that no other module has there. The exceptions are the system variables, the methods that the
machine calls, whose code joins that of the caller, and the names of nested modules, which are the names
that the caller's own copy of the nested module has. -/

namespace TriggerCompiler

/-- The methods that surround a call on one instance of a module. -/
structure InstanceCopies where
  guid : Guid
  copyIn : String
  copyOut : String
deriving DecidableEq

/-- The names of a module's methods, variables and labels inside a caller. -/
structure Renaming where
  key : String
  /-- The beginning of the module's own names. -/
  namePrefix : String
  methods : OrderedMap String String := .empty
  symbols : OrderedMap String String := .empty
  labels : OrderedMap String String := .empty
  instances : List InstanceCopies := []
  /-- The module's names that belong to a nested module. -/
  shared : List String := []
deriving DecidableEq

namespace Renaming

def isShared (t : Renaming) (base : String) : Bool := base ∈ t.shared

def instance? (t : Renaming) (guid : Guid) : Option InstanceCopies :=
  t.instances.find? (·.guid = guid)

def baseName? (t : Renaming) (renamed : String) : Option String :=
  let entries := t.labels.entries ++ t.symbols.entries ++ t.methods.entries
  (entries.find? (·.2 = renamed)).map Prod.fst

/-- The caller's name of a label; the entry of a method follows the name of the method. -/
def label (t : Renaming) (l : String) : String :=
  match t.labels.get? l with
  | some renamed => renamed
  | none =>
      match (Text.withoutEnd? "__entry" l).bind t.methods.get? with
      | some method => entryLabel method
      | none => l

def knowsLabel (t : Renaming) (l : String) : Bool :=
  t.labels.contains l || ((Text.withoutEnd? "__entry" l).bind t.methods.get?).isSome

def symbol (t : Renaming) (s : String) : String := (t.symbols.get? s).getD s

def value (t : Renaming) : Value → Value
  | .label l => .label (t.label l)
  | .method m => .method ((t.methods.get? m).getD m)
  | v => v

def instruction (t : Renaming) : Instruction → Instruction
  | .push s => .push (t.symbol s)
  | .jumpIndirect s => .jumpIndirect (t.symbol s)
  | .jump (.label l) => .jump (.label (t.label l))
  | .jumpIfFalse (.label l) => .jumpIfFalse (.label (t.label l))
  | .label l => .label (t.label l)
  | i => i

/-- Whether a method is called by the machine: its name has a single leading underscore. -/
def isEventHook (name : String) : Bool :=
  match name.toList with
  | '_' :: '_' :: _ => false
  | '_' :: _ => true
  | _ => false

/-- A nested module: the beginning of its names in the module, and its names in the caller. -/
abbrev Alias := String × Renaming

/-- The caller's name of a nested module's name. -/
def aliased? (aliases : List Alias) (table : Renaming → OrderedMap String String)
    (name : String) : Option String :=
  aliases.findSome? fun a => (Text.withoutStart? a.1 name).bind (table a.2).get?

/-- What the names of a merge depend on. -/
structure Naming where
  namePrefix : String
  includeHooks : Bool
  aliases : List Alias

namespace Naming

/-- The caller's name of a method, and whether it belongs to a nested module. -/
def method (n : Naming) (name : String) : String × Bool :=
  if n.includeHooks && isEventHook name then (name, false)
  else
    match aliased? n.aliases Renaming.methods name with
    | some renamed => (renamed, true)
    | none => (n.namePrefix ++ name, false)

def label (n : Naming) (l : String) : String :=
  (aliased? n.aliases Renaming.labels l).getD (n.namePrefix ++ l)

/-- The caller's name of a variable, and whether it belongs to a nested module. A pooled constant gets
its name when it is added to the caller's pool. -/
def variableName? (n : Naming) (v : Variable) : Option (String × Bool) :=
  match v.kind with
  | .constant => none
  | .system => some (v.name, false)
  | kind =>
      if kind = .eventParam && n.includeHooks then some (v.name, false)
      else
        match aliased? n.aliases Renaming.symbols v.name with
        | some renamed => some (renamed, true)
        | none => some (n.namePrefix ++ v.name, false)

end Naming

def addMethod (n : Naming) (t : Renaming) (m : Method) : Renaming :=
  let (name, isShared) := n.method m.name
  { t with
    methods := t.methods.insert m.name name
    labels := (m.code.filterMap Instruction.placedLabel?).foldl
      (fun ls l => ls.insert l (n.label l)) t.labels
    shared := if isShared then m.name :: t.shared else t.shared }

def addVariable (n : Naming) (t : Renaming) (v : Variable) : Renaming :=
  match n.variableName? v with
  | none => t
  | some (name, isShared) => { t with
      symbols := t.symbols.insert v.name name
      shared := if isShared then v.name :: t.shared else t.shared }

/-- The names of a module's methods, labels and variables, pooled constants apart. -/
def build (m : Linkable) (n : Naming) : Renaming :=
  let start : Renaming := { key := m.key, namePrefix := n.namePrefix }
  let named := m.program.methods.toList.foldl (addMethod n) start
  (m.program.symbols.toList.map Prod.snd).foldl (addVariable n) named

/-- Checks that the interface of a module names methods and variables that the module has. -/
def checkInterface (t : Renaming) (m : Linkable) : Except Failure Unit :=
  m.interface.entries.forM fun entry => do
    unless t.methods.contains entry.method do
      throw (.missingModuleSlot m.key entry.method)
    entry.params.forM fun p => do
      unless t.symbols.contains p.carrier do
        throw (.missingModuleSlot m.key p.carrier)

/-- Checks that the code of a module uses only variables and labels that the module has. -/
def checkCode (t : Renaming) (m : Linkable) : Except Failure Unit :=
  let constants := (m.program.symbols.toList.map Prod.snd).filter (·.kind = .constant)
  m.program.methods.toList.forM fun method =>
    method.code.forM fun i => do
      if let some s := i.symbol? then
        unless t.symbols.contains s || constants.any (·.name = s) do
          throw (.undeclaredSymbol m.key method.name s)
      if let some l := i.targetLabel? then
        unless t.knowsLabel l do
          throw (.unknownJumpLabel m.key method.name l)

/-- Checks a module before the caller is changed. -/
def validate (t : Renaming) (m : Linkable) : Except Failure Unit := do
  t.checkInterface m
  t.checkCode m

end Renaming

end TriggerCompiler
