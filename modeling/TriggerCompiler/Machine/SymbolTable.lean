import TriggerCompiler.Machine.Symbol
import TriggerCompiler.OrderedMap

/-! The heap of a program under construction. Every variable has a handle that is never used again. A
variable is found by its name, by the identifier that is bound to it, or, for a pooled constant, by its
type and value. Temporaries are leased and given back; one that is given back is leased again before a
new one is made, the last one given back first. -/

namespace TriggerCompiler

/-- The variables of a program and the ways to find them. -/
structure SymbolTable where
  /-- The variables in heap order. -/
  vars : OrderedMap VarId Variable := .empty
  /-- The handle of the next variable. -/
  nextId : VarId := 0
  names : OrderedMap String VarId := .empty
  guids : OrderedMap Guid VarId := .empty
  constants : OrderedMap String VarId := .empty
  /-- The temporaries of each type that are not leased, the last one given back first. -/
  freeTemps : OrderedMap VarType (List VarId) := .empty
  leased : List VarId := []
  /-- The number of the next name that is made up. -/
  counter : Nat := 0
deriving DecidableEq, Inhabited

namespace SymbolTable

def get? (t : SymbolTable) (id : VarId) : Option Variable := t.vars.get? id

def idOfName? (t : SymbolTable) (name : String) : Option VarId := t.names.get? name

def idOfGuid? (t : SymbolTable) (guid : Guid) : Option VarId := t.guids.get? guid

def byName? (t : SymbolTable) (name : String) : Option Variable := (t.idOfName? name).bind t.get?

def nameOf (t : SymbolTable) (id : VarId) : String :=
  match t.get? id with
  | some v => v.name
  | none => ""

def toList (t : SymbolTable) : List (VarId × Variable) := t.vars.entries

def namedMethods (t : SymbolTable) : List String :=
  t.toList.filterMap fun e =>
    match e.2.default with
    | .method name => some name
    | _ => none

/-- Changes a variable, if there is one with the handle. The name must stay the same. -/
def modifyVar (t : SymbolTable) (id : VarId) (f : Variable → Variable) : SymbolTable :=
  { t with vars := t.vars.modify id f }

def insert (t : SymbolTable) (v : Variable) : VarId × SymbolTable :=
  (t.nextId, { t with
    vars := t.vars.insert t.nextId v
    nextId := t.nextId + 1
    names := t.names.insert v.name t.nextId
    guids := match v.guid with
      | some guid => t.guids.insert guid t.nextId
      | none => t.guids })

/-- The variable of a name, added on first request. -/
def getOrInsert (t : SymbolTable) (v : Variable) : VarId × SymbolTable :=
  match t.idOfName? v.name with
  | some id => (id, t)
  | none => t.insert v

/-- The table after a number for a made-up name has been used. -/
def countUp (t : SymbolTable) : SymbolTable := { t with counter := t.counter + 1 }

/-- Why a variable cannot be declared. -/
inductive DeclareError where
  | nameTaken (name : String)
  | guidTaken (guid : Guid)
deriving DecidableEq

def DeclareError.message : DeclareError → String
  | nameTaken name => s!"variable name '{name}' is already declared"
  | guidTaken guid => s!"variable id {guid.text} is declared twice"

/-- Declares a variable of the author. Name and identifier must be new. -/
def declareUser (t : SymbolTable) (d : VariableDecl) : Except DeclareError (VarId × SymbolTable) :=
  if t.names.contains d.name then .error (.nameTaken d.name)
  else if t.guids.contains d.guid then .error (.guidTaken d.guid)
  else .ok (t.insert
    { name := d.name, type := d.type, default := d.initialValue, kind := .user, sync := d.sync,
      exported := d.exported, global := true, guid := some d.guid })

/-- Declares a copy of a module's variable under a name of its own. -/
def declareImported (t : SymbolTable) (name : String) (source : Variable) : VarId × SymbolTable :=
  t.getOrInsert { source with name, kind := .imported, global := true, guid := none, previous := none }

/-- Declares a variable of a block; it never shares storage with another one. -/
def declareLocal (t : SymbolTable) (name : String) (type : VarType) : VarId × SymbolTable :=
  t.countUp.insert
    { name := s!"__lcl_{name}_{t.counter}", type, default := type.defaultValue, kind := .blockLocal }

def declareInternal (t : SymbolTable) (name : String) (type : VarType) (default : Value) :
    VarId × SymbolTable :=
  t.getOrInsert { name, type, default, kind := .internal }

/-- Declares the storage of a parameter of an event that the machine raises. -/
def declareEventParam (t : SymbolTable) (name : String) (type : VarType) : VarId × SymbolTable :=
  t.getOrInsert { name, type, default := type.defaultValue, kind := .eventParam }

def system (t : SymbolTable) (which : SystemVariable) : VarId × SymbolTable :=
  t.getOrInsert which.toVariable

/-- The constant of a type and value; equal values of equal types share one variable. -/
def constant (t : SymbolTable) (type : VarType) (value : Value) : VarId × SymbolTable :=
  let key := value.poolKey type
  match t.constants.get? key with
  | some id => (id, t)
  | none =>
      let (id, t) := t.countUp.insert
        { name := s!"__const_{type.machineName}_{t.counter}", type, default := value,
          kind := .constant }
      (id, { t with constants := t.constants.insert key id })

def labelConstant (t : SymbolTable) (label : String) : VarId × SymbolTable :=
  t.constant .uint (.label label)

/-- A constant that belongs to one place of the program and is found by its name only. -/
def literal (t : SymbolTable) (name : String) (type : VarType) (value : Value) :
    VarId × SymbolTable :=
  t.getOrInsert { name, type, default := value, kind := .literal }

def acquireTemp (t : SymbolTable) (type : VarType) : VarId × SymbolTable :=
  match (t.freeTemps.get? type).getD [] with
  | id :: rest => (id, { t with
      freeTemps := t.freeTemps.insert type rest
      leased := id :: t.leased })
  | [] =>
      let (id, t) := t.countUp.insert
        { name := s!"__tmp_{t.counter}", type, default := type.defaultValue, kind := .temp }
      (id, { t with leased := id :: t.leased })

/-- Gives a temporary back; a handle that is not leased is left alone. -/
def releaseTemp (t : SymbolTable) (id : VarId) : SymbolTable :=
  if id ∈ t.leased then
    let t := { t with leased := t.leased.filter (· ≠ id) }
    match t.get? id with
    | some v => { t with
        freeTemps := t.freeTemps.insert v.type (id :: (t.freeTemps.get? v.type).getD []) }
    | none => t
  else t

def bindGuid (t : SymbolTable) (guid : Guid) (id : VarId) : SymbolTable :=
  { t with guids := t.guids.insert guid id }

/-- Lets no identifier stand for a variable any more; the variable stays. -/
def unbind (t : SymbolTable) (id : VarId) : SymbolTable :=
  { t with guids := t.guids.filter fun _ v => v ≠ id }

/-- Removes one variable from the heap and from all ways to find it. -/
def drop (t : SymbolTable) (id : VarId) (v : Variable) : SymbolTable :=
  { t with
    vars := t.vars.erase id
    names := if t.names.get? v.name = some id then t.names.erase v.name else t.names
    guids := t.guids.filter fun _ i => i ≠ id
    constants := t.constants.filter fun _ i => i ≠ id
    leased := t.leased.filter (· ≠ id)
    freeTemps := t.freeTemps.mapValues fun _ ids => ids.filter (· ≠ id) }

private theorem size_drop_lt {t : SymbolTable} {id : VarId} {v : Variable} (h : t.get? id = some v) :
    (t.drop id v).vars.size < t.vars.size := by
  have hin : (id, v) ∈ t.vars.entries := OrderedMap.get?_eq_some_iff.mp h
  exact List.length_filter_lt_length_iff_exists.mpr ⟨(id, v), hin, by simp⟩

/-- Removes a variable together with the one that holds its previous value, and so on. -/
def remove (t : SymbolTable) (id : VarId) : Option Variable × SymbolTable :=
  match _h : t.get? id with
  | none => (none, t)
  | some v =>
      match v.previous with
      | none => (some v, t.drop id v)
      | some previous => (some v, ((t.drop id v).remove previous).2)
termination_by t.vars.size
decreasing_by exact size_drop_lt _h

/-- The variable that holds the previous value of a variable, added on first request. -/
def ensurePrevious (t : SymbolTable) (id : VarId) : Option VarId × SymbolTable :=
  match t.get? id with
  | none => (none, t)
  | some v =>
      match v.previous with
      | some previous => (some previous, t)
      | none =>
          let (previous, t) := t.insert
            { name := "__prev_" ++ v.name, type := v.type, default := v.default, kind := .internal }
          (some previous, t.modifyVar id fun v => { v with previous := some previous })

end SymbolTable

end TriggerCompiler
