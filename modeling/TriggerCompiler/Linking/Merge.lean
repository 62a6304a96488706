import TriggerCompiler.Linking.Renaming
import TriggerCompiler.Text.Blank

/-! Merging modules into a program. A module is merged at most once into each caller, after the modules
that it has merged itself, so that a module which is reached along several paths has a single copy of
its variables. Names are built and checked before the caller is changed; a module that fails the check
leaves the caller as it is. -/

namespace TriggerCompiler

/-- The modules merged into a program, and the instances of modules that the program uses. -/
structure Linker where
  /-- The merged modules in the order of merging. -/
  merged : OrderedMap String Renaming := .empty
  nextOrdinal : Nat := 0
  instances : OrderedMap String (List Guid) := .empty
deriving DecidableEq, Inhabited

structure Linkage where
  program : Program := {}
  linker : Linker := {}
deriving DecidableEq, Inhabited

namespace Linker

/-- The comment before the code of a module inside a method that the machine calls. -/
def hookBegin : String := "hook begin"

/-- The comment behind the code of a module inside a method that the machine calls. -/
def hookEnd : String := "hook end"

def hookMarker (edge key : String) : String := edge ++ " " ++ key

/-- The key of the module whose code begins with an instruction, if it is one of the given keys. -/
def beginsHook? (keys : List String) : Instruction → Option String
  | .comment c =>
      match (Text.withoutStart? hookBegin c).map Text.dropBlanks with
      | some key => if key ∈ keys then some key else none
      | none => none
  | _ => none

/-- Drops the code of modules from a method that the machine calls. The state is the comment that ends
the code being dropped. -/
def stripHooks (keys : List String) : Option String → List Instruction → List Instruction
  | _, [] => []
  | some ending, i :: rest =>
      if i = .comment ending then stripHooks keys none rest else stripHooks keys (some ending) rest
  | none, i :: rest =>
      match beginsHook? keys i with
      | some key => stripHooks keys (some (hookMarker hookEnd key)) rest
      | none => i :: stripHooks keys none rest

/-- The module variables of which each instance has its own: those that the author declared, in the
module or in a module merged into it, if they are no parameters of entries and belong to no nested
module that the caller has merged. -/
def duplicated (m : Linkable) (t : Renaming) : List String :=
  if m.interface.multiInstance then
    let carriers := m.interface.entries.flatMap fun e => e.params.map EntryParam.carrier
    let own := (m.program.symbols.toList.map Prod.snd).filter fun v =>
      (v.kind = .user || v.kind = .imported) && !(v.name ∈ carriers) && !t.isShared v.name
    own.map Variable.name
  else []

structure Merging where
  program : Program
  names : Renaming

namespace Merging

def onSymbols (s : Merging) (f : SymbolTable → SymbolTable) : Merging :=
  { s with program := { s.program with symbols := f s.program.symbols } }

def addVariable (copies : List String) (s : Merging) (v : Variable) : Merging :=
  let t := s.names
  match v.kind with
  | .system =>
      match v.system? with
      | some which => s.onSymbols fun symbols => (symbols.system which).2
      | none => s
  | .constant =>
      let (id, symbols) := s.program.symbols.constant v.type (t.value v.default)
      { program := { s.program with symbols }
        names := { t with symbols := t.symbols.insert v.name (symbols.nameOf id) } }
  | kind =>
      if kind = .eventParam && t.symbols.get? v.name = some v.name then
        s.onSymbols fun symbols => (symbols.declareEventParam v.name v.type).2
      else if t.isShared v.name then s
      else
        match t.symbols.get? v.name with
        | none => s
        | some name => s.onSymbols fun symbols =>
            let (id, symbols) := symbols.declareImported name v
            symbols.modifyVar id fun copy => { copy with
              onChange := v.onChange.bind t.methods.get?
              sync := if v.name ∈ copies then .notSynced else copy.sync }

def linkPrevious (source : SymbolTable) (s : Merging) (v : Variable) : Merging :=
  let t := s.names
  let copyOf (name : String) : Option VarId :=
    (t.symbols.get? name).bind s.program.symbols.idOfName?
  match v.previous.bind source.get? with
  | none => s
  | some previous =>
      match copyOf v.name, copyOf previous.name with
      | some owner, some shadow =>
          s.onSymbols (·.modifyVar owner fun copy => { copy with previous := some shadow })
      | _, _ => s

/-- The code of a module's method in the caller. A method that the machine calls leaves out the code of
nested modules, which has joined the caller with their own merge, and is marked at both ends. -/
def renamedCode (m : Linkable) (t : Renaming) (method : Method) (isHook : Bool) :
    List Instruction :=
  if isHook then
    let own := stripHooks (m.nested.map fun n => n.2.key) none method.code
    .comment (hookMarker hookBegin m.key) ::
      (own.map t.instruction ++ [.comment (hookMarker hookEnd m.key)])
  else method.code.map t.instruction

def addMethod (m : Linkable) (named : List String) (s : Merging) (method : Method) : Merging :=
  match s.names.methods.get? method.name with
  | none => s
  | some name =>
      let isHook : Bool := name = method.name
      let methods := s.program.methods.merge
        { name, exported := isHook || name ∈ named
          code := renamedCode m s.names method isHook }
      { s with program := { s.program with methods } }

/-- The name of an instance's own copy of a module variable. -/
def instanceSlot (namePrefix : String) (ordinal : Nat) (base : String) : String :=
  s!"{namePrefix}i{ordinal}_{base}"

/-- Adds one instance of the module: its own variables, and the methods that copy them to and from the
variables that the code of the module uses. -/
def addInstance (m : Linkable) (copies : List String) (s : Merging) (k : Nat) (guid : Guid) :
    Merging :=
  let t := s.names
  let slots := copies.filterMap fun base => do
    let shared ← t.symbols.get? base
    let v ← m.program.symbols.byName? base
    return (instanceSlot t.namePrefix k base, shared, v)
  let symbols := slots.foldl (fun symbols slot => (symbols.declareImported slot.1 slot.2.2).2)
    s.program.symbols
  let copyIn := s!"{t.namePrefix}i{k}__copy_in"
  let copyOut := s!"{t.namePrefix}i{k}__copy_out"
  let load := slots.flatMap fun (own, shared, _) =>
    [Instruction.push own, .push shared, .copy]
  let store := slots.flatMap fun (own, shared, v) =>
    [Instruction.push shared, .push own, .copy] ++ if v.sync.isSynced then [.sentinel] else []
  let methods := (s.program.methods.merge { name := copyIn, code := load }).merge
    { name := copyOut, code := store }
  { program := { symbols, methods }
    names := { t with instances := t.instances ++ [{ guid, copyIn, copyOut }] } }

end Merging

/-- Adds a module to a program under names that have been checked. -/
def addModule (m : Linkable) (instances : List Guid) (program : Program) (t : Renaming) :
    Merging :=
  let source := m.program.symbols
  let vars := source.toList.map Prod.snd
  let copies := duplicated m t
  let s := vars.foldl (Merging.addVariable copies) ⟨program, t⟩
  let s := (vars.filter fun v => !s.names.isShared v.name).foldl
    (Merging.linkPrevious source) s
  let named := s.program.symbols.namedMethods
  let s := (m.program.methods.toList.filter fun method => !s.names.isShared method.name).foldl
    (Merging.addMethod m named) s
  instances.zipIdx.foldl (fun s e => Merging.addInstance m copies s e.2 e.1) s

/-- Merges a module whose nested modules have been merged. -/
def mergeOwn (m : Linkable) (includeHooks : Bool) (aliases : List Renaming.Alias) :
    Attempt Linkage Renaming := do
  let s ← get
  let naming := { namePrefix := s!"__m{s.linker.nextOrdinal}_", includeHooks, aliases }
  let t := Renaming.build m naming
  match t.validate m with
  | .error failure => throw failure
  | .ok () =>
      let instances := (s.linker.instances.get? m.key).getD []
      let merged := addModule m instances s.program t
      set ({ program := merged.program
             linker := { s.linker with
               merged := s.linker.merged.insert m.key merged.names
               nextOrdinal := s.linker.nextOrdinal + 1 } } : Linkage)
      return merged.names

mutual

/-- Merges a module, unless it has been merged before, and returns its names in the caller. -/
def merge (includeHooks : Bool) : Linkable → Attempt Linkage Renaming
  | ⟨key, interface, program, nested⟩ => do
      match (← get).linker.merged.get? key with
      | some existing => return existing
      | none =>
          let aliases ← mergeNested includeHooks nested
          mergeOwn ⟨key, interface, program, nested⟩ includeHooks aliases

def mergeNested (includeHooks : Bool) :
    List (String × Linkable) → Attempt Linkage (List Renaming.Alias)
  | [] => return []
  | (namePrefix, m) :: rest => do
      let t ← merge includeHooks m
      let tail ← mergeNested includeHooks rest
      return (namePrefix, t) :: tail

end

/-- The merged modules that are in a cache, each with the beginning of its names. -/
def nestedModules (l : Linker) (modules : ModuleCache) : List (String × Linkable) :=
  l.merged.values.filterMap fun t => (modules.get? t.key).map fun m => (t.namePrefix, m)

end Linker

end TriggerCompiler
